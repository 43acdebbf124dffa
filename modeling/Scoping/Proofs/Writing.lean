import Scoping.Proofs.Questions

/-!
# Writing an outline

An outline is written line by line, and each line can be the one that there is no room for. An
indent can be too wide, the one below a header included although nothing may follow there, or
what is written so far can become too long. What was written only grows, so the whole is written
just when each indent by itself and the whole are short enough.
-/

namespace Scoping

/-! ### Lengths -/

theorem utf8ByteSize_blanks (n : Nat) :
    (String.ofList (List.replicate n ' ')).utf8ByteSize = n := by
  induction n with
  | zero => rfl
  | succ n ih =>
    rw [List.replicate_succ', String.ofList_append, String.utf8ByteSize_append, ih]
    rfl

theorem utf8ByteSize_join (texts : List String) :
    (String.join texts).utf8ByteSize = (texts.map String.utf8ByteSize).foldr (· + ·) 0 := by
  induction texts with
  | nil => rfl
  | cons text texts ih =>
    rw [String.join_cons, String.utf8ByteSize_append, ih, List.map_cons, List.foldr_cons]

namespace Config

variable {config : Config} {level : Nat} {text more whole : String}

theorem joined_eq_ok_iff : joined text more = .ok whole ↔
    whole = text ++ more ∧ whole.utf8ByteSize ≤ longestText := by
  rw [joined, ← String.utf8ByteSize_append]
  split
  next long => exact ⟨nofun, fun ⟨same, short⟩ => absurd (same ▸ short) (Nat.not_le.mpr long)⟩
  next short =>
    constructor
    · rintro ⟨⟩
      exact ⟨rfl, Nat.not_lt.mp short⟩
    · rintro ⟨rfl, -⟩
      rfl

theorem columns_eq (fits : config.indentWidth * level ≤ longestText) :
    config.columns level = .ok (config.indentWidth * level) := by
  have wider : longestText < 1 <<< 64 := by decide
  rw [columns, if_neg (by omega), if_neg (by omega)]

theorem given_columns_iff :
    (config.columns level).Given ↔ config.indentWidth * level ≤ longestText := by
  refine ⟨?_, fun fits => ⟨_, columns_eq fits⟩⟩
  rintro ⟨n, known⟩
  rw [columns] at known
  split at known
  · cases known
  · split at known
    · cases known
    · omega

end Config

namespace Table

variable {t : Table} {s : ScopeId} {line : OutlineLine} {lines : List OutlineLine}
  {text written whole : String}

/-- A text as a line at a level. -/
def indented (t : Table) (level : Nat) (text : String) : String :=
  String.ofList (List.replicate (t.config.indentWidth * level) ' ') ++ text ++ "\n"

/-- The text of a line whose item has one, whether or not there is room for it. -/
def wording (t : Table) (line : OutlineLine) : String :=
  t.indented line.level ((t.itemText line.item).toOption.getD "")

theorem utf8ByteSize_indented (t : Table) (level : Nat) (text : String) :
    (t.indented level text).utf8ByteSize =
      t.config.indentWidth * level + text.utf8ByteSize + 1 := by
  rw [indented, String.utf8ByteSize_append, String.utf8ByteSize_append, utf8ByteSize_blanks]
  rfl

/-! ### Lines -/

theorem wording_of_itemText (item : t.itemText line.item = .ok text) :
    t.wording line = t.indented line.level text := by
  rw [wording, item]
  rfl

theorem lineText_eq_ok_iff (item : (t.itemText line.item).Given) : t.lineText line = .ok text ↔
    t.config.indentWidth * line.level ≤ Config.longestText ∧ text = t.wording line := by
  obtain ⟨own, item⟩ := item
  rw [wording_of_itemText item]
  constructor
  · intro known
    obtain ⟨indent, blanks, known⟩ := Answer.bind_eq_ok_iff.mp known
    obtain ⟨n, columns, blanks⟩ := Answer.bind_eq_ok_iff.mp blanks
    have fits := Config.given_columns_iff.mp ⟨n, columns⟩
    rw [Config.columns_eq fits] at columns
    cases columns
    cases blanks
    rw [item] at known
    cases known
    exact ⟨fits, rfl⟩
  · rintro ⟨fits, rfl⟩
    rw [lineText, Config.indent, Config.columns_eq fits, item]
    rfl

/-- The indent of the line and the one that is needed below it are both short enough when the
wider one is. -/
theorem reach_fits_iff : t.config.indentWidth * line.reach ≤ Config.longestText ↔
    t.config.indentWidth * line.level ≤ Config.longestText ∧ t.roomBelow line = .ok () := by
  obtain ⟨level, item⟩ := line
  cases item with
  | entry x => exact (and_iff_left rfl).symm
  | header q =>
    have room : t.roomBelow ⟨level, .header q⟩ = .ok () ↔
        (t.config.columns (level + 1)).Given := by
      rw [roomBelow]
      cases t.config.columns (level + 1) with
      | ok n => exact ⟨fun _ => ⟨n, rfl⟩, fun _ => rfl⟩
      | error e => exact ⟨nofun, nofun⟩
    rw [room, Config.given_columns_iff]
    exact (and_iff_right_of_imp fun fits =>
      Nat.le_trans (Nat.mul_le_mul_left _ (Nat.le_succ level)) fits).symm

theorem writeLine_eq_ok_iff (item : (t.itemText line.item).Given) :
    t.writeLine written line = .ok whole ↔
      t.config.indentWidth * line.reach ≤ Config.longestText ∧
        whole = written ++ t.wording line ∧ whole.utf8ByteSize ≤ Config.longestText := by
  rw [reach_fits_iff, writeLine]
  constructor
  · intro known
    obtain ⟨own, text, known⟩ := Answer.bind_eq_ok_iff.mp known
    obtain ⟨next, added, known⟩ := Answer.bind_eq_ok_iff.mp known
    obtain ⟨⟨⟩, room, known⟩ := Answer.bind_eq_ok_iff.mp known
    cases known
    obtain ⟨fits, rfl⟩ := (lineText_eq_ok_iff item).mp text
    exact ⟨⟨fits, room⟩, Config.joined_eq_ok_iff.mp added⟩
  · rintro ⟨⟨fits, room⟩, added⟩
    rw [(lineText_eq_ok_iff item).mpr ⟨fits, rfl⟩, Answer.ok_bind,
      Config.joined_eq_ok_iff.mpr added, Answer.ok_bind, room]
    rfl

/-- Lines are written one behind the other if each indent is short enough and so is the whole. By
induction on the lines, as what was written before is no longer than the whole. -/
theorem foldlM_writeLine_eq_ok_iff (items : ∀ line ∈ lines, (t.itemText line.item).Given)
    (short : written.utf8ByteSize ≤ Config.longestText) :
    lines.foldlM t.writeLine written = .ok whole ↔
      (∀ line ∈ lines, t.config.indentWidth * line.reach ≤ Config.longestText) ∧
        whole = written ++ String.join (lines.map t.wording) ∧
        whole.utf8ByteSize ≤ Config.longestText := by
  induction lines generalizing written with
  | nil =>
    rw [List.map_nil, String.join_nil, String.append_empty]
    constructor
    · rintro ⟨⟩
      exact ⟨List.forall_mem_nil _, rfl, short⟩
    · rintro ⟨-, rfl, -⟩
      rfl
  | cons line lines ih =>
    obtain ⟨item, items⟩ := List.forall_mem_cons.mp items
    rw [List.foldlM_cons, Answer.bind_eq_ok_iff, List.map_cons, String.join_cons,
      ← String.append_assoc]
    constructor
    · rintro ⟨next, first, rest⟩
      obtain ⟨fits, rfl, short⟩ := (writeLine_eq_ok_iff item).mp first
      obtain ⟨others, joined⟩ := (ih items short).mp rest
      exact ⟨List.forall_mem_cons.mpr ⟨fits, others⟩, joined⟩
    · rintro ⟨fits, rfl, short⟩
      obtain ⟨fits, others⟩ := List.forall_mem_cons.mp fits
      have before : (written ++ t.wording line).utf8ByteSize ≤ Config.longestText := by
        rw [String.utf8ByteSize_append] at short
        exact Nat.le_trans (Nat.le_add_right _ _) short
      exact ⟨_, (writeLine_eq_ok_iff item).mpr ⟨fits, rfl, before⟩,
        (ih items before).mpr ⟨others, rfl, short⟩⟩

/-! ### Outlines -/

/-- No indent that the outline of a scope needs is longer than a text can be. -/
def OutlineFits (t : Table) (s : ScopeId) : Prop :=
  ∀ lines, t.outline s = .ok lines →
    ∀ line ∈ lines, t.config.indentWidth * line.reach ≤ Config.longestText

/-- How long the lines of an outline are together. Each has its indent, its item and its end. -/
def outlineSize (t : Table) (s : ScopeId) : Answer Nat := do
  let sizes ← (← t.outline s).mapM fun line =>
    return t.config.indentWidth * line.level + (← t.itemText line.item).utf8ByteSize + 1
  return sizes.foldr (· + ·) 0

/-- The lines of an outline are together no longer than a text can be. -/
def LinesFit (t : Table) (s : ScopeId) : Prop :=
  ∃ size, t.outlineSize s = .ok size ∧ size ≤ Config.longestText

theorem outlineSize_eq (outlined : t.outline s = .ok lines)
    (items : ∀ line ∈ lines, (t.itemText line.item).Given) :
    t.outlineSize s = .ok (String.join (lines.map t.wording)).utf8ByteSize := by
  have sizes : lines.mapM (fun line => do
      return t.config.indentWidth * line.level + (← t.itemText line.item).utf8ByteSize + 1) =
      (.ok (lines.map fun line => (t.wording line).utf8ByteSize) : Answer (List Nat)) := by
    refine Answer.mapM_eq_ok fun line member => ?_
    obtain ⟨text, item⟩ := items line member
    rw [wording_of_itemText item, utf8ByteSize_indented, item]
    rfl
  rw [outlineSize, outlined, Answer.ok_bind, sizes, utf8ByteSize_join, List.map_map]
  rfl

/-- Where no type occurs in itself, an outline has lines, and they are its text if the indents
and the whole are short enough. -/
theorem Consistent.renderScope_eq_ok_iff (consistent : t.Consistent) (forest : t.Forest)
    (laid : t.types.Laid) (acyclic : t.types.Acyclic) (given : t.HasScope s) :
    ∃ lines, t.outline s = .ok lines ∧
      t.outlineSize s = .ok (String.join (lines.map t.wording)).utf8ByteSize ∧
      ∀ text, t.renderScope s = .ok text ↔ t.OutlineFits s ∧
        text = String.join (lines.map t.wording) ∧ text.utf8ByteSize ≤ Config.longestText := by
  obtain ⟨lines, outlined, known⟩ := consistent.exists_outline forest given
  have items : ∀ line ∈ lines, (t.itemText line.item).Given := by
    intro line member
    have item := (known line member).1
    cases shape : line.item with
    | header q =>
      rw [shape] at item
      exact consistent.exists_scopeName item
    | entry x =>
      rw [shape] at item
      exact consistent.given_displaySymbol laid acyclic item
  have fits : t.OutlineFits s ↔
      ∀ line ∈ lines, t.config.indentWidth * line.reach ≤ Config.longestText := by
    refine ⟨fun fits => fits lines outlined, fun fits lines' outlined' => ?_⟩
    cases Except.ok.inj (outlined.symm.trans outlined')
    exact fits
  refine ⟨lines, outlined, outlineSize_eq outlined items, fun text => ?_⟩
  rw [renderScope, outlined, Answer.ok_bind, foldlM_writeLine_eq_ok_iff items (Nat.zero_le _), fits,
    String.empty_append]

/-- The outline of a scope has a text just when there is room for its indents and its lines. -/
theorem Consistent.given_renderScope_iff (consistent : t.Consistent) (forest : t.Forest)
    (laid : t.types.Laid) (acyclic : t.types.Acyclic) (given : t.HasScope s) :
    (t.renderScope s).Given ↔ t.OutlineFits s ∧ t.LinesFit s := by
  obtain ⟨lines, _, size, written⟩ :=
    consistent.renderScope_eq_ok_iff forest laid acyclic given
  constructor
  · rintro ⟨text, known⟩
    obtain ⟨fits, rfl, short⟩ := (written text).mp known
    exact ⟨fits, _, size, short⟩
  · rintro ⟨fits, n, size', short⟩
    cases size.symm.trans size'
    exact ⟨_, (written _).mpr ⟨fits, rfl, short⟩⟩

/-- A width at which no indent is too long at any depth. -/
theorem Consistent.outlineFits (consistent : t.Consistent) (forest : t.Forest)
    (narrow : t.config.indentWidth * t.inwardSteps ≤ Config.longestText) (given : t.HasScope s) :
    t.OutlineFits s := by
  obtain ⟨lines, outlined, known⟩ := consistent.exists_outline forest given
  intro lines' outlined' line member
  cases Except.ok.inj (outlined.symm.trans outlined')
  exact Nat.le_trans (Nat.mul_le_mul_left _ (known line member).2) narrow

end Table

end Scoping
