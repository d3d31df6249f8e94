import ScriptLift.Codec.Package
import ScriptLift.Proofs.Decoding
import ScriptLift.Proofs.Leaves

/- Packages read back from their text.

   The decoder of each kind of data reads what is written for it: tokens and stored values by
   recursion over their trees, declarations and the directory by their fields. Only floats
   leave a choice to the writer, so what is assumed of them is said about the floats among
   the leaves of the data (`Leaf.Written`). A decoder may open only so many containers at
   once; the recursion hands each part what its own nesting needs. -/
namespace ScriptLift

open Json

/-- What `float` writes for the float is a number that reads back as the float. -/
def Single.WrittenBy (float : Single → Json) (x : Single) : Prop :=
  (float x).Proper ∧ (float x).asSingle? = some x

theorem Single.WrittenBy.reads {float : Single → Json} {x : Single} (h : x.WrittenBy float) :
    Reads (fun _ => asSingle?) (float x) x := ⟨h.1, fun _ => h.2⟩

namespace Leaf

/-- Every float among the leaves is written to be read back. -/
def Written (float : Single → Json) (leaves : List Leaf) : Prop := ∀ x ∈ singles leaves, x.WrittenBy float

variable {float : Single → Json} {leaves more : List Leaf}

theorem written_iff : Written float leaves ↔ ∀ x, .single x ∈ leaves → x.WrittenBy float := by
  simp only [Written, mem_singles]

@[simp] theorem written_string (s : String) : Written float (.string s :: leaves) ↔ Written float leaves := by
  simp [written_iff]

@[simp] theorem written_single (x : Single) :
    Written float (.single x :: leaves) ↔ x.WrittenBy float ∧ Written float leaves := by
  simp [written_iff]

@[simp] theorem written_append : Written float (leaves ++ more) ↔ Written float leaves ∧ Written float more := by
  simp [written_iff, or_imp, forall_and]

@[simp] theorem written_flatMap {α : Type} {l : List α} {f : α → List Leaf} :
    Written float (l.flatMap f) ↔ ∀ a ∈ l, Written float (f a) := by
  simp only [written_iff, List.mem_flatMap]
  exact ⟨fun h a ha x hx => h x ⟨a, ha, hx⟩, fun h x ⟨a, ha, hx⟩ => h a ha x hx⟩

end Leaf

variable {float : Single → Json}

/-! Tokens. -/

theorem Reference.reads (r : Reference) : Reads (fun _ => Reference.ofJson?) r.toJson r :=
  (Reads.int32 r.index).map Reference.mk

theorem Vec3.reads {v : Vec3} (h : Leaf.Written float v.leaves) : Reads Vec3.ofJson? (v.toJson float) v := by
  simp only [Vec3.leaves, Leaf.written_single] at h
  exact .record rfl (by decide)
    (.required rfl h.1.reads (.required rfl h.2.1.reads (.required rfl h.2.2.1.reads .done)))

namespace Token

theorem ofJson?_null : ∀ n, ofJson? n .null = none
  | 0 | 1 => rfl
  | n + 2 => by rw [ofJson?.eq_def]; rfl

theorem listToJson_eq (ts : List Token) : listToJson float ts = ts.map (toJson float) := by
  induction ts with
  | nil => rfl
  | cons t ts ih => rw [listToJson, ih, List.map_cons]

/-- The tags of the tokens that hold a record. -/
def recordTags : List String :=
  ["Let", "Context", "ArrayElement", "FunctionCall", "GlobalFunction", "BinaryOperator", "PreOperator",
    "PostOperator", "DynamicCast", "MetaCast", "JumpIfNot", "Iterator", "Switch", "Case"]

theorem ofConstant?_recordTags {name : String} (h : name ∈ recordTags) (n : Nat) (content : Json) :
    ofConstant? n content name = none := by
  simp only [recordTags, List.mem_cons, List.not_mem_nil, or_false] at h
  rcases h with rfl | rfl | rfl | rfl | rfl | rfl | rfl | rfl | rfl | rfl | rfl | rfl | rfl | rfl <;>
    simp [ofConstant?]

theorem nodup_operandNames (name : String) : (operandNames name).Nodup := by
  unfold operandNames
  split <;> decide

/-- A token with content is a constant or holds a record, unless it is a return. -/
theorem ofJson?_tag {name : String} {content : Json} (hnull : content ≠ .null) (hname : name ≠ "Return") (n : Nat) :
    ofJson? (n + 1) (tag name content) = (ofConstant? n content name).or
      (recordOf (operandNames name) (fun n r => ofRecord? (ofJson? n) (listOf ofJson? n) r name) n content) := by
  rw [tag, ofJson?.eq_def]
  cases n with
  -- the tag has spent the last container, so no record can be opened
  | zero => simp [unitTag?_record hnull, tagged?_record, recordOf]
  | succ n =>
    simp only [unitTag?_record hnull, tagged?_record, Option.bind_eq_bind, Option.bind_some]
    cases ofConstant? (n + 1) content name with
    | some t => rfl
    | none => cases n <;> rfl

theorem reads_constant {name : String} {content : Json} {t : Token}
    (h : Reads (fun n content => ofConstant? n content name) content t) (hnull : content ≠ .null)
    (hname : name ≠ "Return") : Reads ofJson? (tag name content) t := by
  refine .tagged h.proper fun n hn => ?_
  rw [← tag, ofJson?_tag hnull hname, h.read hn, Option.some_or]

theorem reads_record {name : String} (hname : name ∈ recordTags) {ms : Record} {t : Token}
    (hnames : ms.map (·.1) = operandNames name)
    (h : ReadsFields ms ms (fun n r => ofRecord? (ofJson? n) (listOf ofJson? n) r name) t) :
    Reads ofJson? (tag name (record ms)) t := by
  have hreturn : ∀ name ∈ recordTags, name ≠ "Return" := by decide
  have hrecord := Reads.record hnames (nodup_operandNames name) h
  refine .tagged hrecord.proper fun n hn => ?_
  rw [← tag, ofJson?_tag (record_ne_null ms) (hreturn name hname), ofConstant?_recordTags hname, Option.none_or,
    hrecord.read hn]

theorem reads_ret {content : Json} {t : Token} (h : Reads ofJson? content t) :
    Reads ofJson? (tag "Return" content) (.ret t) := by
  have hnull := h.ne_null ofJson?_null
  refine .alternative h fun n => ?_
  rw [ofJson?.eq_def]
  cases n <;> simp [unitTag?_record hnull, tagged?_record]

/-- A token without operands is read whatever may be opened. -/
theorem reads_unit {name : String} {t : Token} (h : ofUnitTag? name = some t) : Reads ofJson? (.str name) t where
  proper := (Reads.str name).proper
  read := by
    rintro (_ | _ | n) -
    · exact h
    · exact h
    · exact h

mutual

theorem reads : ∀ t : Token, Leaf.Written float t.leaves → Reads ofJson? (t.toJson float) t
  | .localVariable name, _ => reads_constant ((Reads.str name).map localVariable) nofun (by decide)
  | .instanceVariable name, _ => reads_constant ((Reads.str name).map instanceVariable) nofun (by decide)
  | .defaultVariable name, _ => reads_constant ((Reads.str name).map defaultVariable) nofun (by decide)
  | .selfObject, _ => reads_unit rfl
  | .noObject, _ => reads_unit rfl
  | .nothing, _ => reads_unit rfl
  | .stop, _ => reads_unit rfl
  | .iteratorNext, _ => reads_unit rfl
  | .iteratorPop, _ => reads_unit rfl
  | .intConst value, _ => reads_constant ((Reads.int32 value).map intConst) nofun (by decide)
  | .byteConst value, _ => reads_constant ((Reads.uint8 value).map byteConst) nofun (by decide)
  | .floatConst value, h => by
    rw [leaves, Leaf.written_single] at h
    exact reads_constant (h.1.reads.map floatConst) (h.1.reads.ne_null fun _ => rfl) (by decide)
  | .boolConst value, _ => reads_constant ((Reads.bool value).map boolConst) nofun (by decide)
  | .stringConst value, _ => reads_constant ((Reads.str value).map stringConst) nofun (by decide)
  | .nameConst value, _ => reads_constant ((Reads.str value).map nameConst) nofun (by decide)
  | .objectConst reference, _ => reads_constant ((reference.reads).map objectConst) nofun (by decide)
  | .vectorConst value, h => reads_constant ((Vec3.reads h).map vectorConst) nofun (by decide)
  | .rotatorConst pitch yaw roll, _ => by
    refine reads_constant ?_ nofun (by decide)
    simp only [ofConstant?]
    exact .record rfl (by decide)
      (.required rfl (.int32 pitch) (.required rfl (.int32 yaw) (.required rfl (.int32 roll) .done)))
  | .jump target, _ => by
    refine reads_constant ?_ nofun (by decide)
    simp only [ofConstant?]
    exact .record rfl (by decide) (.map (.required rfl (.uint32 target) .done))
  | .assign lhs rhs, h => by
    rw [leaves, Leaf.written_append] at h
    refine reads_record (by decide) rfl ?_
    simp only [ofRecord?]
    exact .required rfl (reads lhs h.1) (.required rfl (reads rhs h.2) .done)
  | .context owner member, h => by
    rw [leaves, Leaf.written_append] at h
    refine reads_record (by decide) rfl ?_
    simp only [ofRecord?]
    exact .required rfl (reads owner h.1) (.required rfl (reads member h.2) .done)
  | .element base index, h => by
    rw [leaves, Leaf.written_append] at h
    refine reads_record (by decide) rfl ?_
    simp only [ofRecord?]
    exact .required rfl (reads base h.1) (.required rfl (reads index h.2) .done)
  | .call name params, h => by
    rw [leaves, Leaf.written_string] at h
    rw [toJson, listToJson_eq]
    refine reads_record (by decide) rfl ?_
    simp only [ofRecord?]
    exact .required rfl (.str name) (.required rfl (.list (listReads params h)) .done)
  | .globalCall name params, h => by
    rw [leaves, Leaf.written_string] at h
    rw [toJson, listToJson_eq]
    refine reads_record (by decide) rfl ?_
    simp only [ofRecord?]
    exact .required rfl (.str name) (.required rfl (.list (listReads params h)) .done)
  | .binary op lhs rhs, h => by
    rw [leaves, List.cons_append, Leaf.written_string, Leaf.written_append] at h
    refine reads_record (by decide) rfl ?_
    simp only [ofRecord?]
    exact .required rfl (.str op) (.required rfl (reads lhs h.1) (.required rfl (reads rhs h.2) .done))
  | .prefixOp op operand, h => by
    rw [leaves, Leaf.written_string] at h
    refine reads_record (by decide) rfl ?_
    simp only [ofRecord?]
    exact .required rfl (.str op) (.required rfl (reads operand h) .done)
  | .postfixOp op operand, h => by
    rw [leaves, Leaf.written_string] at h
    refine reads_record (by decide) rfl ?_
    simp only [ofRecord?]
    exact .required rfl (.str op) (.required rfl (reads operand h) .done)
  | .dynamicCast className value, h => by
    rw [leaves, Leaf.written_string] at h
    refine reads_record (by decide) rfl ?_
    simp only [ofRecord?]
    exact .required rfl (.str className) (.required rfl (reads value h) .done)
  | .metaCast className value, h => by
    rw [leaves, Leaf.written_string] at h
    refine reads_record (by decide) rfl ?_
    simp only [ofRecord?]
    exact .required rfl (.str className) (.required rfl (reads value h) .done)
  | .ret value, h => reads_ret (reads value h)
  | .jumpIfNot target condition, h => by
    refine reads_record (by decide) rfl ?_
    simp only [ofRecord?]
    exact .required rfl (.uint32 target) (.required rfl (reads condition h) .done)
  | .iterator expression loopEnd, h => by
    refine reads_record (by decide) rfl ?_
    simp only [ofRecord?]
    exact .required rfl (reads expression h) (.required rfl (.uint32 loopEnd) .done)
  | .switch expression, h => by
    refine reads_record (by decide) rfl ?_
    simp only [ofRecord?]
    exact .required rfl (reads expression h) .done
  | .case next none, _ => by
    refine reads_record (by decide) rfl ?_
    simp only [ofRecord?]
    exact .required rfl (.uint16 next) (.defaulted rfl .null .done)
  | .case next (some value), h => by
    refine reads_record (by decide) rfl ?_
    simp only [ofRecord?]
    exact .required rfl (.uint16 next) (.defaulted rfl ((reads value h).orNull ofJson?_null) .done)

theorem listReads : ∀ ts : List Token, Leaf.Written float (listLeaves ts) →
    ∀ t ∈ ts, Reads ofJson? (t.toJson float) t
  | [], _ => by simp
  | t :: ts, h => by
    rw [listLeaves, Leaf.written_append] at h
    exact List.forall_mem_cons.mpr ⟨reads t h.1, listReads ts h.2⟩

end

end Token

theorem Instruction.reads {i : Instruction} (h : Leaf.Written float i.item.leaves) :
    Reads Instruction.ofJson? (i.toJson float) i :=
  .record rfl (by decide) (.required rfl (.uint32 i.offset) (.required rfl (i.item.reads h) .done))

/-! Properties and stored values. -/

namespace Kind

/-- A kind without content is read whatever may be opened. -/
theorem reads_unit {name : String} {k : Kind} (h : ofUnitTag? name = some k) :
    Reads Kind.ofJson? (.str name) k where
  proper := (Reads.str name).proper
  read := by
    rintro (_ | _ | n) -
    · exact h
    · exact h
    · rw [Kind.ofJson?]; exact h

/-- A kind with content names a type, unless it is an array. -/
theorem reads_path {name : String} {ms : Record} {k : Kind} (hname : name ≠ "Array")
    (h : Reads (fun n content => ofPath? n content name) (record ms) k) :
    Reads Kind.ofJson? (record [(name, record ms)]) k := by
  refine .tagged h.proper fun n hn => ?_
  have hread := h.read hn
  obtain ⟨n, rfl, -⟩ := depth_record_le hn
  simp [Kind.ofJson?, unitTag?_record (record_ne_null ms), tagged?_record, hread]

theorem reads_array {content : Json} {p : Property} (h : Reads Property.ofJson? content p) :
    Reads Kind.ofJson? (record [("Array", record [("inner", content)])]) (.array p) := by
  have hrecord : Reads (recordOf ["inner"] fun n r => return .array (← r.required "inner" (Property.ofJson? n)))
      (record [("inner", content)]) (Kind.array p) := .record rfl (by decide) (.required rfl h .done)
  refine .tagged hrecord.proper fun n hn => ?_
  have hread := hrecord.read hn
  obtain ⟨n, rfl, -⟩ := depth_record_le hn
  rw [Kind.ofJson?, unitTag?_record (record_ne_null _), tagged?_record]
  exact hread

end Kind

theorem Property.ofJson?_eq : Property.ofJson? =
    recordOf Property.fieldNames fun n r => Property.ofRecord? (Kind.ofJson? n) r := by
  funext n j
  cases n with
  | zero => rw [Property.ofJson?]; rfl
  | succ n => rw [Property.ofJson?]; rfl

mutual

theorem Kind.reads : ∀ k : Kind, Reads Kind.ofJson? k.toJson k
  | .int | .bool | .float | .name | .string => Kind.reads_unit rfl
  | .byte none => by
    refine Kind.reads_path (by decide) ?_
    simp only [Kind.ofPath?]
    exact .record rfl (by decide) (.map (.defaulted rfl .null .done))
  | .byte (some path) => by
    refine Kind.reads_path (by decide) ?_
    simp only [Kind.ofPath?]
    exact .record rfl (by decide) (.map (.defaulted rfl ((Reads.str path).orNull fun _ => rfl) .done))
  | .object path => by
    refine Kind.reads_path (by decide) ?_
    simp only [Kind.ofPath?]
    exact .record rfl (by decide) (.map (.required rfl (.str path) .done))
  | .metaclass path => by
    refine Kind.reads_path (by decide) ?_
    simp only [Kind.ofPath?]
    exact .record rfl (by decide) (.map (.required rfl (.str path) .done))
  | .array element => Kind.reads_array element.reads
  | .struct path => by
    refine Kind.reads_path (by decide) ?_
    simp only [Kind.ofPath?]
    exact .record rfl (by decide) (.map (.required rfl (.str path) .done))
  | .delegate path => by
    refine Kind.reads_path (by decide) ?_
    simp only [Kind.ofPath?]
    exact .record rfl (by decide) (.map (.required rfl (.str path) .done))

theorem Property.reads : ∀ p : Property, Reads Property.ofJson? p.toJson p
  | ⟨name, kind, flags, objectFlags, arrayDim, category⟩ => by
    rw [Property.ofJson?_eq]
    unfold Property.ofRecord?
    exact .record rfl (by decide) (.required rfl (.str name) (.required rfl kind.reads
      (.defaulted rfl (.uint32 flags.bits) (.defaulted rfl (.uint32 objectFlags.bits)
        (.defaulted rfl (.uint32 arrayDim) (.defaulted rfl (.option (fun _ => rfl) fun s _ => .str s) .done))))))

end

namespace Value

/-- A value that is not made of values is read by its tag. -/
theorem reads_scalar {name : String} {content : Json} {v : Value} (hname : name ≠ "Array" ∧ name ≠ "Struct")
    (h : Reads (fun _ content => ofScalar? content name) content v) :
    Reads Value.ofJson? (record [(name, content)]) v := by
  refine .tagged h.proper fun n hn => ?_
  cases n <;> simp [Value.ofJson?, tagged?_record, hname, h.read hn]

/-- A value that holds a list is read by its elements. -/
theorem reads_list {α : Type} {name : String} {content : Json} {read : Decoder α} {as : List α}
    {make : List α → Value} (h : Reads (listOf read) content as)
    (heq : ∀ n, Value.ofJson? (n + 2) (record [(name, content)]) = (elementsWith (read n) content).map make) :
    Reads Value.ofJson? (record [(name, content)]) (make as) := by
  refine .tagged h.proper fun n hn => ?_
  have hlist := h.read hn
  cases n with
  | zero => cases hlist
  | succ n => rw [heq, show elementsWith (read n) content = some as from hlist, Option.map_some]

theorem listToJson_eq (vs : List Value) : Value.listToJson float vs = vs.map (Value.toJson float) := by
  induction vs with
  | nil => simp only [Value.listToJson, List.map_nil]
  | cons v vs ih => rw [Value.listToJson, ih, List.map_cons]

theorem slotsToJson_eq (slots : List (Option Value)) :
    Value.slotsToJson float slots = slots.map fun slot => (slot.map (Value.toJson float)).getD .null := by
  induction slots with
  | nil => simp only [Value.slotsToJson, List.map_nil]
  | cons slot slots ih => cases slot <;> rw [Value.slotsToJson, ih, List.map_cons] <;> rfl

theorem ofJson?_null : ∀ n, Value.ofJson? n .null = none
  | 0 | 1 | _ + 2 => by simp [Value.ofJson?, tagged?]

end Value

theorem Setting.listToJson_eq (ss : List Setting) : Setting.listToJson float ss = ss.map (Setting.toJson float) := by
  induction ss with
  | nil => simp only [Setting.listToJson, List.map_nil]
  | cons s ss ih => rw [Setting.listToJson, ih, List.map_cons]

theorem Setting.ofJson?_eq : Setting.ofJson? = recordOf ["template", "slots"] fun n r => do
    return {
      template := ← r.required "template" (Property.ofJson? n)
      slots := ← r.required "slots" (listOf (fun n => orNull (Value.ofJson? n)) n) } := by
  funext n j
  match n with
  | 0 => rw [Setting.ofJson?]; rfl
  -- a setting with one container left opens its record and has none for its template
  | 1 =>
    rw [Setting.ofJson?, recordOf]
    cases fields? ["template", "slots"] j <;> simp [Record.required, Property.ofJson?]
  | n + 2 => rw [Setting.ofJson?]; rfl

mutual

theorem Value.reads : ∀ v : Value, Leaf.Written float v.leaves → Reads Value.ofJson? (v.toJson float) v
  | .byte value, _ => Value.reads_scalar (by decide) ((Reads.uint8 value).map Value.byte)
  | .int value, _ => Value.reads_scalar (by decide) ((Reads.int32 value).map Value.int)
  | .bool value, _ => Value.reads_scalar (by decide) ((Reads.bool value).map Value.bool)
  | .float value, h => by
    rw [Value.leaves, Leaf.written_single] at h
    exact Value.reads_scalar (by decide) (h.1.reads.map Value.float)
  | .name value, _ => Value.reads_scalar (by decide) ((Reads.str value).map Value.name)
  | .string value, _ => Value.reads_scalar (by decide) ((Reads.str value).map Value.string)
  | .object reference, _ => Value.reads_scalar (by decide) (reference.reads.map Value.object)
  | .array elements, h => by
    rw [Value.leaves] at h
    rw [Value.toJson, Value.listToJson_eq]
    refine Value.reads_list (.list (Value.listReads elements h)) fun n => ?_
    rw [Value.ofJson?, tagged?_record]
    rfl
  | .struct fields, h => by
    rw [Value.leaves] at h
    rw [Value.toJson, Setting.listToJson_eq]
    refine Value.reads_list (.list (Setting.listReads fields h)) fun n => ?_
    rw [Value.ofJson?, tagged?_record]
    rfl

theorem Value.listReads : ∀ vs : List Value, Leaf.Written float (Value.listLeaves vs) →
    ∀ v ∈ vs, Reads Value.ofJson? (v.toJson float) v
  | [], _ => by simp
  | v :: vs, h => by
    rw [Value.listLeaves, Leaf.written_append] at h
    exact List.forall_mem_cons.mpr ⟨v.reads h.1, Value.listReads vs h.2⟩

theorem Value.slotReads : ∀ slots : List (Option Value), Leaf.Written float (Value.slotLeaves slots) →
    ∀ slot ∈ slots, ∀ v ∈ slot, Reads Value.ofJson? (v.toJson float) v
  | [], _ => by simp
  | none :: slots, h => by
    rw [Value.slotLeaves] at h
    exact List.forall_mem_cons.mpr ⟨by simp, Value.slotReads slots h⟩
  | some v :: slots, h => by
    rw [Value.slotLeaves, Leaf.written_append] at h
    have hv := v.reads h.1
    exact List.forall_mem_cons.mpr ⟨by rintro _ ⟨⟩; exact hv, Value.slotReads slots h.2⟩

theorem Setting.reads : ∀ s : Setting, Leaf.Written float s.leaves → Reads Setting.ofJson? (s.toJson float) s
  | ⟨template, slots⟩, h => by
    rw [Setting.leaves, Leaf.written_append] at h
    have hslots := Value.slotReads slots h.2
    rw [Setting.ofJson?_eq, Setting.toJson, Value.slotsToJson_eq]
    exact .record rfl (by decide) (.required rfl template.reads
      (.required rfl (.list fun slot hslot => .option Value.ofJson?_null (hslots slot hslot)) .done))

theorem Setting.listReads : ∀ ss : List Setting, Leaf.Written float (Setting.listLeaves ss) →
    ∀ s ∈ ss, Reads Setting.ofJson? (s.toJson float) s
  | [], _ => by simp
  | s :: ss, h => by
    rw [Setting.listLeaves, Leaf.written_append] at h
    exact List.forall_mem_cons.mpr ⟨s.reads h.1, Setting.listReads ss h.2⟩

end

/-! Declarations. -/

theorem EnumDecl.reads (e : EnumDecl) : Reads EnumDecl.ofJson? e.toJson e :=
  .record rfl (by decide) (.required rfl (.str e.name) (.required rfl (.list fun s _ => .str s) .done))

theorem ConstDecl.reads (c : ConstDecl) : Reads ConstDecl.ofJson? c.toJson c :=
  .record rfl (by decide) (.required rfl (.str c.name) (.required rfl (.str c.value) .done))

theorem FunctionDecl.reads {f : FunctionDecl} (h : Leaf.Written float f.leaves) :
    Reads FunctionDecl.ofJson? (f.toJson float) f := by
  simp only [FunctionDecl.leaves, List.cons_append, Leaf.written_string, Leaf.written_append, Leaf.written_flatMap] at h
  exact .record rfl (by decide) (.required rfl (.str f.name) (.defaulted rfl (.uint32 f.flags.bits)
    (.defaulted rfl (.uint16 f.nativeIndex) (.defaulted rfl (.uint8 f.precedence)
      (.defaulted rfl (.list fun p _ => p.reads)
        (.defaulted rfl (.list fun i hi => Instruction.reads (h.2 i hi)) .done))))))

theorem reads_optionalName (name : Option String) : Reads (fun _ => orNull asString?) (optionalName name) name :=
  .option (fun _ => rfl) fun s _ => .str s

theorem Member.listToJson_eq (ms : List Member) : Member.listToJson float ms = ms.map (Member.toJson float) := by
  induction ms with
  | nil => simp only [Member.listToJson, List.map_nil]
  | cons m ms ih => rw [Member.listToJson, ih, List.map_cons]

/-- Reads a scope on its own. -/
def Scope.ofJson? : Decoder Scope :=
  recordOf Scope.fieldNames fun n r => Scope.ofRecord? (listOf Member.ofJson? n) r

theorem Scope.map_ofJson? (make : Scope → Member) (n : Nat) (content : Json) :
    (Scope.ofJson? (n + 1) content).map make = do
      return make (← Scope.ofRecord? (listOf Member.ofJson? n) (← fields? Scope.fieldNames content)) := by
  simp only [Scope.ofJson?, recordOf, Option.map_eq_bind, Option.bind_eq_bind, Option.bind_assoc]
  rfl

theorem Member.ofJson?_scope {name : String} {make : Scope → Member}
    (h : name = "Struct" ∧ make = .struct ∨ name = "State" ∧ make = .state) (n : Nat) (content : Json) :
    Member.ofJson? (n + 1) (record [(name, content)]) = (Scope.ofJson? n content).map make := by
  rw [Member.ofJson?, tagged?_record]
  -- the reader of the list of members depends on whether a third container may be opened
  match n with
  | 0 => rcases h with ⟨rfl, rfl⟩ | ⟨rfl, rfl⟩ <;> rfl
  | 1 | n + 2 =>
    rw [Scope.map_ofJson?]
    rcases h with ⟨rfl, rfl⟩ | ⟨rfl, rfl⟩ <;> rfl

mutual

theorem Member.reads : ∀ m : Member, Leaf.Written float m.leaves → Reads Member.ofJson? (m.toJson float) m
  | .const c, _ => .alternative c.reads fun n => by simp [Member.ofJson?, tagged?_record]
  | .enum e, _ => .alternative e.reads fun n => by simp [Member.ofJson?, tagged?_record]
  | .struct s, h => .alternative (s.reads h) (Member.ofJson?_scope (.inl ⟨rfl, rfl⟩) · _)
  | .property p, _ => .alternative p.reads fun n => by simp [Member.ofJson?, tagged?_record]
  | .function f, h => .alternative (FunctionDecl.reads h) fun n => by simp [Member.ofJson?, tagged?_record]
  | .state s, h => .alternative (s.reads h) (Member.ofJson?_scope (.inr ⟨rfl, rfl⟩) · _)

theorem Scope.reads : ∀ s : Scope, Leaf.Written float s.leaves → Reads Scope.ofJson? (s.toJson float) s
  | ⟨name, parent, members⟩, h => by
    simp only [Scope.leaves, List.cons_append, Leaf.written_string, Leaf.written_append] at h
    rw [Scope.toJson, Member.listToJson_eq]
    unfold Scope.ofJson? Scope.ofRecord?
    exact .record rfl (by decide) (.required rfl (.str name) (.defaulted rfl (reads_optionalName parent)
      (.defaulted rfl (.list (Member.listReads members h.2)) .done)))

theorem Member.listReads : ∀ ms : List Member, Leaf.Written float (Member.listLeaves ms) →
    ∀ m ∈ ms, Reads Member.ofJson? (m.toJson float) m
  | [], _ => by simp
  | m :: ms, h => by
    rw [Member.listLeaves, Leaf.written_append] at h
    exact List.forall_mem_cons.mpr ⟨m.reads h.1, Member.listReads ms h.2⟩

end

theorem ClassDecl.reads {c : ClassDecl} (h : Leaf.Written float c.leaves) :
    Reads ClassDecl.ofJson? (c.toJson float) c := by
  simp only [ClassDecl.leaves, List.cons_append, Leaf.written_string, Leaf.written_append] at h
  rw [ClassDecl.toJson, Member.listToJson_eq, Setting.listToJson_eq]
  exact .record rfl (by decide) (.required rfl (.str c.name) (.defaulted rfl (reads_optionalName c.parent)
    (.defaulted rfl (.list (Member.listReads c.members h.1.2))
      (.defaulted rfl (.list (Setting.listReads c.defaults h.2)) .done))))

/-! Packages. -/

theorem Import.reads (i : Import) : Reads Import.ofJson? i.toJson i :=
  .record rfl (by decide) (.required rfl (.str i.name) (.required rfl (.str i.classPackage)
    (.required rfl (.str i.className) (.defaulted rfl i.outer.reads .done))))

theorem Polygon.reads {p : Polygon} (h : Leaf.Written float p.leaves) : Reads Polygon.ofJson? (p.toJson float) p := by
  simp only [Polygon.leaves, Leaf.written_append, Leaf.written_flatMap] at h
  obtain ⟨⟨⟨⟨⟨hvertices, horigin⟩, hnormal⟩, hu⟩, hv⟩, -⟩ := h
  exact .record rfl (by decide) (.required rfl (.list fun v hv => Vec3.reads (hvertices v hv))
    (.required rfl (Vec3.reads horigin) (.required rfl (Vec3.reads hnormal) (.required rfl (Vec3.reads hu)
      (.required rfl (Vec3.reads hv) (.defaulted rfl (.str p.itemName) (.defaulted rfl p.texture.reads
        (.defaulted rfl (.uint32 p.flags) (.defaulted rfl (.int32 p.link) .done)))))))))

theorem ObjectInstance.reads {o : ObjectInstance} (h : Leaf.Written float o.leaves) :
    Reads ObjectInstance.ofJson? (o.toJson float) o := by
  rw [ObjectInstance.toJson, Setting.listToJson_eq]
  exact .record rfl (by decide) (.defaulted rfl (.list (Setting.listReads o.settings h))
    (.defaulted rfl (.list fun b _ => .uint8 b) .done))

theorem Payload.reads : ∀ {payload : Payload}, Leaf.Written float payload.leaves →
    Reads Payload.ofJson? (payload.toJson float) payload
  | .classDecl _, h => .alternative (ClassDecl.reads h) fun n => by simp [Payload.ofJson?, tagged?_record]
  | .object _, h => .alternative (ObjectInstance.reads h) fun n => by simp [Payload.ofJson?, tagged?_record]
  | .polygons list, h => by
    rw [Payload.leaves, Leaf.written_flatMap] at h
    have hlist : Reads (recordOf ["polygons"] fun n r =>
          (r.required "polygons" (listOf Polygon.ofJson? n)).map .polygons)
        (record [("polygons", .array (list.map (Polygon.toJson float)))]) (Payload.polygons list) :=
      .record rfl (by decide) (.map (.required rfl (.list fun p hp => Polygon.reads (h p hp)) .done))
    refine .tagged hlist.proper fun n hn => ?_
    rw [Payload.ofJson?, tagged?_record]
    exact hlist.read hn

theorem Payload.ofJson?_null : ∀ n, Payload.ofJson? n .null = none
  | 0 | _ + 1 => rfl

theorem Export.reads {e : Export} (h : Leaf.Written float e.leaves) : Reads Export.ofJson? (e.toJson float) e := by
  simp only [Export.leaves, Leaf.written_string, Leaf.written_flatMap, Option.mem_toList] at h
  exact .record rfl (by decide) (.required rfl (.str e.name) (.defaulted rfl e.classRef.reads
    (.defaulted rfl e.superRef.reads (.defaulted rfl e.outer.reads (.defaulted rfl (.uint32 e.flags.bits)
      (.defaulted rfl (.option Payload.ofJson?_null fun payload hp => Payload.reads (h payload hp)) .done))))))

namespace Table

variable {α : Type}

theorem insertEntry_of_lt {name : String} (value : α) {l : List (String × α)} (h : ∀ e ∈ l, e.1 < name) :
    insertEntry name value l = l ++ [(name, value)] := by
  induction l with
  | nil => rfl
  | cons e l ih =>
    rw [List.forall_mem_cons] at h
    rw [insertEntry, if_neg (String.lt_asymm h.1), if_pos h.1, ih h.2, List.cons_append]

/-- Entries put in by order come after those that are there. -/
theorem entries_foldl_insert (l : List (String × α)) (t : Table α)
    (h : (t.entries ++ l).Pairwise (fun a b => a.1 < b.1)) :
    (l.foldl (fun t e => t.insert e.1 e.2) t).entries = t.entries ++ l := by
  induction l generalizing t with
  | nil => rw [List.foldl_nil, List.append_nil]
  | cons e l ih =>
    have hlast : ∀ x ∈ t.entries, x.1 < e.1 := fun x hx =>
      (List.pairwise_append.mp h).2.2 x hx e (by simp)
    have hinsert : (t.insert e.1 e.2).entries = t.entries ++ [e] := insertEntry_of_lt e.2 hlast
    rw [List.foldl_cons, ih _ (by rwa [hinsert, List.append_assoc]), hinsert, List.append_assoc]
    rfl

theorem ofList_entries (t : Table α) : ofList t.entries = t := by
  have hentries : (ofList t.entries).entries = t.entries := entries_foldl_insert t.entries empty t.sorted
  cases hlist : ofList t.entries with
  | mk entries sorted =>
    rw [hlist] at hentries
    cases t
    cases hentries
    rfl

end Table

namespace Package

theorem reads {p : Package} (h : Leaf.Written float p.leaves) : Reads ofJson? (p.toJson float) p := by
  simp only [leaves, List.cons_append, Leaf.written_string, Leaf.written_append, Leaf.written_flatMap] at h
  have hdone (r : Record) : ReadsFields r [] (fun _ _ => pure
      { p with hierarchy := .ofList p.hierarchy.entries, enums := .ofList p.enums.entries }) p := by
    rw [Table.ofList_entries, Table.ofList_entries]
    exact .done
  exact .record rfl (by decide) (.required rfl (.str p.name) (.defaulted rfl (.list fun i _ => i.reads)
    (.defaulted rfl (.list fun e he => Export.reads (h.1.1.2 e he))
      (.defaulted rfl (.table fun e _ => .str e.2) (.defaulted rfl (.table fun e _ => e.2.reads) (hdone _))))))

/-- A package is read back from its text: where every float is finite, the number written for it
reads back as the same float, and the text nests as deep as a reader may go, nothing is lost. -/
theorem ofText?_render_toJson {float : Single → Json} {p : Package}
    (hfloat : ∀ x ∈ Leaf.singles p.leaves, x.isFinite → x.WrittenBy float)
    (hfinite : ∀ x ∈ Leaf.singles p.leaves, x.isFinite) (hdepth : (p.toJson float).depth ≤ maxDepth) :
    ofText? (p.toJson float).render = some p := by
  have hreads : Reads ofJson? (p.toJson float) p := reads fun x hx => hfloat x hx (hfinite x hx)
  rw [ofText?, parse?_render hreads.proper, Option.bind_some, hreads.read hdepth]

theorem proper_floatJson {x : Single} (h : x.isFinite) : (floatJson x).Proper := by
  rw [floatJson, if_pos h, Proper]
  exact NumberLiteral.proper_digitsOf _ _ (by simpa using digitsOf_ne_nil _)

/-- A class with an enum, a state, a function and a default value for one of two slots. -/
def gateClass : ClassDecl where
  name := "Gate"
  parent := some "Actor"
  members :=
    [ .enum ⟨"Sides", ["Left", "Right"]⟩
    , .state ⟨"Open", none, [.const ⟨"Width", "2"⟩]⟩
    , .function
        { name := "Turn", flags := ⟨0⟩, nativeIndex := 0, precedence := 0
          properties :=
            [⟨"Steps", .array ⟨"Step", .byte (some "Sides"), ⟨0⟩, ⟨0⟩, 1, none⟩, ⟨0⟩, ⟨0⟩, 1, some "Gate"⟩]
          body :=
            [ ⟨0, .jumpIfNot 9 (.call "IsShut" [.localVariable "Side", .floatConst ⟨0x3dcccccd⟩])⟩
            , ⟨5, .case 12 none⟩
            , ⟨9, .ret (.vectorConst ⟨⟨0x80000000⟩, ⟨0x3f800000⟩, ⟨0xc0200000⟩⟩)⟩ ] } ]
  defaults := [⟨⟨"Label", .string, ⟨0⟩, ⟨0⟩, 2, none⟩, [some (.string "\"Höhe\"\n\\"), none]⟩]

/-- A package with the class, an object of nested values, and an export that holds nothing. -/
def courtyard : Package where
  name := "Courtyard"
  imports := [⟨"Stone", "Engine", "Texture", ⟨0⟩⟩]
  exports :=
    [ ⟨"Gate", ⟨0⟩, ⟨0⟩, ⟨0⟩, ⟨0⟩, some (.classDecl gateClass)⟩
    , ⟨"Lamp", ⟨0⟩, ⟨0⟩, ⟨1⟩, ⟨0⟩, some (.object
        { settings :=
            [⟨⟨"Power", .struct "Range", ⟨0⟩, ⟨0⟩, 1, none⟩,
              [some (.struct [⟨⟨"Low", .float, ⟨0⟩, ⟨0⟩, 1, none⟩,
                [some (.array [.float ⟨0x42c80000⟩, .int (-7)])]⟩])]⟩]
          unread := [7, 255] })⟩
    , ⟨"Wall", ⟨-1⟩, ⟨0⟩, ⟨0⟩, ⟨4⟩, none⟩ ]
  hierarchy := .ofList [("Courtyard.Gate", "Engine.Actor")]
  enums := .ofList [("Engine.Axis", ⟨"Axis", ["X", "Y"]⟩)]

theorem ofText?_toText_courtyard :
    (∀ x ∈ Leaf.singles courtyard.leaves, x.isFinite) ∧ (courtyard.toJson floatJson).depth ≤ maxDepth ∧
      ofText? courtyard.toText = some courtyard := by
  have hfinite : ∀ x ∈ Leaf.singles courtyard.leaves, x.isFinite := by decide +kernel
  have hback : ∀ x ∈ Leaf.singles courtyard.leaves, (floatJson x).asSingle? = some x := by decide +kernel
  have hdepth : (courtyard.toJson floatJson).depth ≤ maxDepth := by decide +kernel
  exact ⟨hfinite, hdepth,
    ofText?_render_toJson (fun x hx h => ⟨proper_floatJson h, hback x hx⟩) hfinite hdepth⟩

end Package

end ScriptLift
