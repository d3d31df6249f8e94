import ScriptLift.Proofs.BlockPlaces
import ScriptLift.Proofs.LineEndings

/- The indentation of a text.

   An emitter is told the indentation its text stands at, and does nothing with it but to open
   lines there or some tabs deeper. So its text at a greater indentation is the same text with
   every line shifted (`Text.shift`), and once rendered the same string with tabs put in behind
   every line break, provided no string of it has a line feed. `Becomes f x y` says that the
   run `y` is the run `x` with `f` applied to its result; it is carried through statements,
   assignments, polygons and blocks inside one another. -/
namespace ScriptLift

/-- The string with `k` tabs behind every line feed. -/
def withTabs (k : Nat) (s : String) : String :=
  String.ofList (s.toList.flatMap fun c => if c = '\n' then '\n' :: List.replicate k '\t' else [c])

theorem withTabs_append (k : Nat) (a b : String) : withTabs k (a ++ b) = withTabs k a ++ withTabs k b := by
  simp [withTabs]

theorem OneLine.withTabs_eq {s : String} (h : OneLine s) (k : Nat) : withTabs k s = s := by
  rw [withTabs, flatMap_lineFeed _ h, String.ofList_toList]

theorem withTabs_ending (k : Nat) (ending : LineEnding) : withTabs k ending.text = ending.text ++ tabs k := by
  cases ending <;> simp [withTabs, LineEnding.text, tabs, ← String.toList_inj]

theorem tabs_add (m n : Nat) : tabs (m + n) = tabs n ++ tabs m := by
  rw [tabs, tabs, tabs, Nat.add_comm, List.replicate_add, String.ofList_append]

/-! Shifted texts. -/

namespace Text

section Pieces
variable {k indent : Nat}

@[simp] theorem shift_nil : shift k [] = [] := rfl

@[simp] theorem shift_append (a b : Text) : shift k (a ++ b) = shift k a ++ shift k b := List.map_append

@[simp] theorem shift_lit (s : String) : shift k (lit s) = lit s := rfl

@[simp] theorem shift_line : shift k (line indent) = line (indent + k) := rfl

@[simp] theorem shift_lineOf (s : String) : shift k (lineOf indent s) = lineOf (indent + k) s := rfl

@[simp] theorem shift_braces (body : Text) :
    shift k (Stmt.braces indent body) = Stmt.braces (indent + k) (shift k body) := by
  simp [Stmt.braces]

theorem shift_flatMap {α : Type} (f : α → Text) (items : List α) :
    shift k (items.flatMap f) = items.flatMap fun item => shift k (f item) := List.map_flatMap

theorem shift_join (separator : Text) (texts : List Text) :
    shift k (join separator texts) = join (shift k separator) (texts.map (shift k)) := by
  fun_induction join separator texts with
  | case1 => rfl
  | case2 t => rfl
  | case3 t rest hrest ih =>
    rw [shift_append, shift_append, ih, List.map_cons, join]
    simpa using hrest

end Pieces

/-- A shifted text is written with tabs behind every line break. -/
theorem Unbroken.render_shift {t : Text} (h : Unbroken t) (k : Nat) (ending : LineEnding) :
    (t.shift k).render ending = withTabs k (t.render ending) := by
  induction t with
  | nil => rfl
  | cons piece rest ih =>
    have hpiece : (piece.shift k).render ending = withTabs k (piece.render ending) := by
      cases piece with
      | verbatim s => exact ((h s (List.mem_cons_self ..)).withTabs_eq k).symm
      | lineBreak indent =>
        show ending.text ++ tabs (indent + k) = withTabs k (ending.text ++ tabs indent)
        rw [withTabs_append, withTabs_ending, (oneLine_tabs indent).withTabs_eq, tabs_add, String.append_assoc]
    show (piece.shift k).render ending ++ (shift k rest).render ending = _
    rw [render, withTabs_append, hpiece, ih fun s hs => h s (List.mem_cons_of_mem _ hs)]

end Text

/-! Two runs, one after the other. -/

/-- The second computation is the first with `f` applied to its result, and fails alike. -/
def Becomes {α β : Type} (f : α → β) (x : Except Error α) (y : Except Error β) : Prop := y = x.map f

namespace Becomes

variable {α β γ δ : Type} {f : α → β} {g : γ → δ} {x : Except Error α} {y : Except Error β}

theorem pure {a : α} {b : β} (h : b = f a) : Becomes f (Pure.pure a) (Pure.pure b) := congrArg Except.ok h

theorem error (e : Error) : Becomes f (.error e) (.error e) := rfl

theorem bind {next : α → Except Error γ} {next' : β → Except Error δ} (h : Becomes f x y)
    (hnext : ∀ a, Becomes g (next a) (next' (f a))) : Becomes g (x >>= next) (y >>= next') := by
  cases h
  cases x with
  | error e => rfl
  | ok a => exact hnext a

/-- After one and the same step. -/
theorem step {next : α → Except Error γ} {next' : α → Except Error δ}
    (hnext : ∀ a, Becomes g (next a) (next' a)) : Becomes g (x >>= next) (x >>= next') := by
  cases x with
  | error e => rfl
  | ok a => exact hnext a

end Becomes

/-! Statements. -/

section Statements
variable {render : Token → Except Error String} {k m n : Nat}

/-- A second part that is no statement on its own is written as a block. -/
theorem Stmt.shifted_otherwise (h : m = n + k) {condition : Token} {body others : Block} {jump : UInt32}
    (hothers : ∀ there other, others = [⟨there, other⟩] → False)
    (hbody : Becomes (Text.shift k) (Block.text render (n + 1) body) (Block.text render (m + 1) body))
    (hmore : Becomes (Text.shift k) (Block.text render (n + 1) others) (Block.text render (m + 1) others)) :
    Becomes (Text.shift k) ((Stmt.branch condition body (some ⟨jump, others⟩)).text render n)
      ((Stmt.branch condition body (some ⟨jump, others⟩)).text render m) := by
  rw [Stmt.text, Stmt.text]
  · exact .step fun _ => hbody.bind fun _ => hmore.bind fun _ => .pure (by simp [h])
  · exact hothers
  · exact hothers

mutual

theorem Stmt.shifted_text {m n : Nat} (h : m = n + k) : ∀ s : Stmt,
    Becomes (Text.shift k) (s.text render n) (s.text render m)
  | .plain token => .step fun _ => .pure (by simp)
  | .leave => .pure (by simp)
  | .branch condition body none =>
    .step fun _ => (Block.shifted_text (show m + 1 = n + 1 + k by omega) body).bind fun _ => .pure (by simp [h])
  | .branch condition body (some ⟨jump, [⟨there, other⟩]⟩) => by
    have hdeeper : m + 1 = n + 1 + k := by omega
    rw [Stmt.text, Stmt.text]
    refine .step fun s => (Block.shifted_text hdeeper body).bind fun b => ?_
    split
    · exact (Stmt.shifted_text h other).bind fun _ => .pure (by simp [h])
    · exact (Stmt.shifted_text hdeeper other).bind fun _ => .pure (by simp [h, Nat.add_right_comm n k 1])
  | .branch condition body (some ⟨jump, []⟩) =>
    Stmt.shifted_otherwise h (by simp) (Block.shifted_text (by omega) body) (Block.shifted_text (by omega) [])
  | .branch condition body (some ⟨jump, e :: e' :: others⟩) =>
    Stmt.shifted_otherwise h (by simp) (Block.shifted_text (by omega) body)
      (Block.shifted_text (by omega) (e :: e' :: others))
  | .whileLoop condition body _ | .forEach condition body _ _ =>
    .step fun _ => (Block.shifted_text (show m + 1 = n + 1 + k by omega) body).bind fun _ => .pure (by simp [h])
  | .doUntil condition body =>
    (Block.shifted_text (show m + 1 = n + 1 + k by omega) body).bind fun _ => .step fun _ => .pure (by simp [h])
  | .forLoop start condition step body _ =>
    .step fun _ => .step fun _ => .step fun _ =>
      (Block.shifted_text (show m + 1 = n + 1 + k by omega) body).bind fun _ => .pure (by simp [h])
  | .switch subject arms =>
    .step fun _ => (Arms.shifted_text (show m + 1 = n + 1 + k by omega) arms).bind fun _ => .pure (by simp [h])

/-- A block at a greater indentation is the block with every line shifted. -/
theorem Block.shifted_text {m n : Nat} (h : m = n + k) : ∀ block : List (Placed Stmt),
    Becomes (Text.shift k) (Block.text render n block) (Block.text render m block)
  | [] => .pure rfl
  | ⟨_, s⟩ :: rest =>
    (Stmt.shifted_text h s).bind fun _ => (Block.shifted_text h rest).bind fun _ => .pure (by simp [h])

theorem Arms.shifted_text {m n : Nat} (h : m = n + k) : ∀ arms : List (Placed (Arm (List (Placed Stmt)))),
    Becomes (Text.shift k) (Arms.text render n arms) (Arms.text render m arms)
  | [] => .pure rfl
  | ⟨_, ⟨label, body⟩⟩ :: rest =>
    .step fun _ => (Block.shifted_text (show m + 1 = n + 1 + k by omega) body).bind fun _ =>
      (Arms.shifted_text h rest).bind fun _ => .pure (by simp [h])

end

end Statements

/-! Settings. -/

section Settings
variable {c : Context} {block block' : Reference → Except Error Text} {k : Nat}

theorem Value.shifted_exportBlock (hblock : ∀ r, Becomes (Text.shift k) (block r) (block' r)) (template : Property)
    (v : Value) : Becomes (List.map (Text.shift k)) (v.exportBlock c.package block template)
      (v.exportBlock c.package block' template) := by
  cases v with
  | object r =>
    refine .step fun needed => ?_
    split
    · exact (hblock r).bind fun _ => .pure rfl
    · exact .pure rfl
  | _ => exact .pure rfl

theorem Assignment.shifted_pieces (hblock : ∀ r, Becomes (Text.shift k) (block r) (block' r)) (a : Assignment) :
    Becomes (List.map (Text.shift k)) (a.pieces c block) (a.pieces c block') := by
  obtain ⟨name, template, value⟩ := a
  cases value with
  | some v => exact (Value.shifted_exportBlock hblock template v).bind fun _ => .step fun _ => .pure (by simp)
  | none =>
    simp only [Assignment.pieces]
    split
    · exact .pure rfl
    · exact .error _

theorem Assignment.shifted_listPieces (hblock : ∀ r, Becomes (Text.shift k) (block r) (block' r))
    (as : List Assignment) :
    Becomes (List.map (Text.shift k)) (listPieces c block as) (listPieces c block' as) := by
  induction as with
  | nil => exact .pure rfl
  | cons a as ih => exact (shifted_pieces hblock a).bind fun _ => ih.bind fun _ => .pure (by simp)

theorem Setting.shifted_text (hblock : ∀ r, Becomes (Text.shift k) (block r) (block' r)) {m n : Nat} (h : m = n + k)
    (settings : List Setting) :
    Becomes (Text.shift k) (Setting.text c block n settings) (Setting.text c block' m settings) := by
  unfold Setting.text
  rw [Setting.lines_eq, Setting.lines_eq]
  refine (Assignment.shifted_listPieces hblock _).bind fun pieces => .pure ?_
  rw [Text.shift_join, Text.shift_line, h]

end Settings

/-! Blocks. -/

section Blocks
variable {p : Package} {k m n : Nat} (h : m = n + k)

include h

theorem Polygon.shifted_text (polygon : Polygon) :
    Becomes (Text.shift k) (polygon.text p n) (polygon.text p m) := by
  refine .step fun header => .pure ?_
  simp only [Text.shift_append, Text.shift_lineOf, Text.shift_flatMap, h, Nat.add_right_comm n k 1]

theorem Polygon.shifted_listText (polygons : List Polygon) :
    Becomes (Text.shift k) (Polygon.listText p n polygons) (Polygon.listText p m polygons) := by
  induction polygons with
  | nil => exact .pure rfl
  | cons polygon rest ih => exact (polygon.shifted_text h).bind fun _ => ih.bind fun _ => .pure (by simp)

theorem Package.shifted_brushText (r : Reference) (e : Export) (o : ObjectInstance) :
    Becomes (Text.shift k) (p.brushText r e o n) (p.brushText r e o m) := by
  unfold brushText
  split
  · exact .error _
  · refine (Polygon.shifted_listText (show m + 2 = n + 2 + k by omega) _).bind fun _ => .pure ?_
    simp [h, Nat.add_right_comm n k 1]

end Blocks

namespace Context

variable (c : Context) {k m n : Nat} (h : m = n + k)

include h

/-- Blocks inside one another are shifted together, from the innermost outwards. -/
theorem shifted_objectBlock (budget : Nat) (r : Reference) :
    Becomes (Text.shift k) (c.objectBlock budget n r) (c.objectBlock budget m r) := by
  induction budget generalizing m n r with
  | zero => exact .error _
  | succ budget ih =>
    have hdeeper : m + 1 = n + 1 + k := by omega
    unfold objectBlock
    refine .step fun e => .step fun className => ?_
    split
    · split
      · exact Package.shifted_brushText h r e _
      · refine .step fun word => (Setting.shifted_text (ih hdeeper) hdeeper _).bind fun body => .pure ?_
        simp [h, Nat.add_right_comm n k 1]
    · exact .step fun _ => .error _

theorem shifted_settingsText (settings : List Setting) :
    Becomes (Text.shift k) (c.settingsText n settings) (c.settingsText m settings) :=
  Setting.shifted_text (fun r => c.shifted_objectBlock h _ r) h settings

end Context

/-- A shifted text in which only breaks open lines, as a string. -/
theorem Becomes.render {x y : Except Error Text} {k : Nat} (h : Becomes (Text.shift k) x y)
    (hx : Yields Text.Unbroken x) (ending : LineEnding) :
    y.map (Text.render ending) = (x.map (Text.render ending)).map (withTabs k) := by
  cases h
  cases x with
  | error e => rfl
  | ok t => exact congrArg Except.ok ((hx t rfl).render_shift k ending)

/-- Indentation is a shift of all lines alike. Where no string of the package and of what is
written has a line feed, a block of statements or a list of settings, with all the blocks
inside it, has at indentation `n + k` its text at `n` with `k` tabs put in behind every line
break, or fails as it does there. -/
theorem Package.source_indent (p : Package) (o : Options) (n k : Nat) (hp : Leaf.Unbroken p.leaves) :
    (∀ block : Block, (∀ t ∈ Block.tokens block, Leaf.Unbroken t.leaves) →
      (Block.text (Context.ofOptions p o).tokenText (n + k) block).map (Text.render o.lineEnding) =
        ((Block.text (Context.ofOptions p o).tokenText n block).map (Text.render o.lineEnding)).map (withTabs k)) ∧
    ∀ settings : List Setting, Leaf.Unbroken (Setting.listLeaves settings) →
      p.settingsSource o (n + k) settings = (p.settingsSource o n settings).map (withTabs k) := by
  refine ⟨fun block htokens => ?_, fun settings hsettings => ?_⟩
  · refine (Block.shifted_text rfl block).render (Block.unbroken_text n block fun t ht => ?_) o.lineEnding
    exact t.oneLine_render (fun r => Context.oneLine_link hp r) (htokens t ht)
  · exact ((Context.ofOptions p o).shifted_settingsText rfl settings).render
      (Context.unbroken_settingsText hp n hsettings) o.lineEnding

namespace Package

/-- A package with a room, and a brush in it. -/
def brushInRoom : Package :=
  { Package.named "Maps" with
    imports :=
      [ ⟨"Engine", "Core", "Package", ⟨0⟩⟩, ⟨"Polys", "Core", "Class", ⟨-1⟩⟩
      , ⟨"Model", "Core", "Class", ⟨-1⟩⟩ ]
    exports :=
      [ ⟨"Polys0", ⟨-2⟩, ⟨0⟩, ⟨0⟩, ⟨0⟩, some (.polygons
          [⟨[], ⟨⟨0⟩, ⟨0⟩, ⟨0⟩⟩, ⟨⟨0⟩, ⟨0⟩, ⟨0⟩⟩, ⟨⟨0⟩, ⟨0⟩, ⟨0⟩⟩, ⟨⟨0⟩, ⟨0⟩, ⟨0⟩⟩, "None", ⟨0⟩, 8, 0⟩])⟩
      , ⟨"Model0", ⟨-3⟩, ⟨0⟩, ⟨0⟩, ⟨0⟩, some (.object ⟨[], [0, 1]⟩)⟩
      , ⟨"Room", ⟨0⟩, ⟨0⟩, ⟨0⟩, ⟨0⟩, some (.object ⟨[⟨⟨"Shape", .object "Model", .exportObject, ⟨0⟩, 1, none⟩,
          [some (.object ⟨2⟩)]⟩], []⟩)⟩ ] }

/-- A setting that exports the room. -/
def roomSetting : List Setting :=
  [⟨⟨"Room", .object "Room", .exportObject, ⟨0⟩, 1, none⟩, [some (.object ⟨3⟩)]⟩]

def roomSettingSource : String :=
  "Begin Object Class=Class Name=Room\r\n\tBegin Brush Name=Model0\r\n\t\tBegin PolyList\r\n" ++
    "\t\t\tBegin Polygon Flags=8 Link=0\r\n" ++
    "\t\t\t\tOrigin   +00000.000000,+00000.000000,+00000.000000\r\n" ++
    "\t\t\t\tNormal   +00000.000000,+00000.000000,+00000.000000\r\n" ++
    "\t\t\t\tTextureU +00000.000000,+00000.000000,+00000.000000\r\n" ++
    "\t\t\t\tTextureV +00000.000000,+00000.000000,+00000.000000\r\n" ++
    "\t\t\tEnd Polygon\r\n\t\tEnd PolyList\r\n\tEnd Brush\r\n" ++
    "\tShape=Model'myLevel.Model0'\r\nEnd Object\r\nRoom=Class'myLevel.Room'"

/-- A loop with a branch of two parts in it. -/
def branchInLoop : Block :=
  [⟨0, .whileLoop (.localVariable "busy") [⟨5, .branch (.objectConst ⟨3⟩) [⟨10, .plain .stop⟩]
    (some ⟨12, [⟨14, .plain (.ret .nothing)⟩]⟩)⟩] 20⟩]

def branchInLoopSource : String :=
  "\r\nwhile ( busy )\r\n\x7b\r\n\tif ( Class'myLevel.Room' )\r\n\t\x7b\r\n\t\tstop;\r\n\t\x7d\r\n" ++
    "\telse\r\n\t\x7b\r\n\t\treturn;\r\n\t\x7d\r\n\x7d"

theorem source_indent_brushInRoom :
    Leaf.Unbroken brushInRoom.leaves ∧ (∀ t ∈ Block.tokens branchInLoop, Leaf.Unbroken t.leaves) ∧
    Leaf.Unbroken (Setting.listLeaves roomSetting) ∧
    ((Block.text (Context.ofOptions brushInRoom ⟨true, .crlf⟩).tokenText 2 branchInLoop).map
      (Text.render .crlf)).toOption = some (withTabs 2 branchInLoopSource) ∧
    (brushInRoom.settingsSource ⟨true, .crlf⟩ 2 roomSetting).toOption = some (withTabs 2 roomSettingSource) := by
  have hp : Leaf.Unbroken brushInRoom.leaves := by decide
  have htokens : ∀ t ∈ Block.tokens branchInLoop, Leaf.Unbroken t.leaves := by decide
  have hsettings : Leaf.Unbroken (Setting.listLeaves roomSetting) := by decide
  have hmap : ∀ x : Except Error String, (x.map (withTabs 2)).toOption = x.toOption.map (withTabs 2) := by
    intro x
    cases x <;> rfl
  have hloop : ((Block.text (Context.ofOptions brushInRoom ⟨true, .crlf⟩).tokenText 0 branchInLoop).map
      (Text.render .crlf)).toOption = some branchInLoopSource := by decide +kernel
  have hroom : (brushInRoom.settingsSource ⟨true, .crlf⟩ 0 roomSetting).toOption = some roomSettingSource := by
    decide +kernel
  obtain ⟨hblock, hlist⟩ := source_indent brushInRoom ⟨true, .crlf⟩ 0 2 hp
  refine ⟨hp, htokens, hsettings, ?_, ?_⟩
  · rw [hblock branchInLoop htokens, hmap, hloop, Option.map_some]
  · rw [hlist roomSetting hsettings, hmap, hroom, Option.map_some]

end Package

end ScriptLift
