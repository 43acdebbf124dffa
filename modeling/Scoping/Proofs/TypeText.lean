import Scoping.Proofs.TypeHistory
import Scoping.Types.Format

/-!
# Types as text

The text of a type is put together from the texts of its parts. Where no type occurs in
itself, a way into parts meets no type twice, so it is no longer than there are types, and
the text comes to an end. A text is the same in every later pool, if all types that occur in
it and all names were there before.
-/

namespace Scoping

namespace Pool

variable {pool later : Pool} {names more : Names} {t u : TypeId} {e : TypeExpr}

/-- A type that occurs in this one and in itself. -/
def Endless (pool : Pool) (t : TypeId) : Prop :=
  ∃ u, pool.Reaches t u ∧ Relation.TransGen pool.Part u u

/-- No type occurs in itself. -/
def Acyclic (pool : Pool) : Prop := ∀ t, ¬ Relation.TransGen pool.Part t t

theorem Acyclic.not_endless (acyclic : pool.Acyclic) (t : TypeId) : ¬ pool.Endless t := by
  rintro ⟨u, _, loops⟩
  exact acyclic u loops

/-- Every type is made of older ones only. -/
def Older (pool : Pool) : Prop := ∀ t u, pool.Part t u → u.index < t.index

theorem Older.acyclic (older : pool.Older) : pool.Acyclic := by
  have descends : ∀ {t u}, Relation.TransGen pool.Part t u → u.index < t.index := by
    intro t u occurs
    induction occurs with
    | single part => exact older _ _ part
    | tail _ part below => exact Nat.lt_trans (older _ _ part) below
  exact fun t loops => Nat.lt_irrefl t.index (descends loops)

/-- Nothing occurs in itself where types are made of earlier types only. -/
theorem acyclic_of_earlier
    (earlier : ∀ i < pool.size, ∀ u ∈ (pool.expr ⟨i⟩).children, u.index < i) : pool.Acyclic := by
  have older : pool.Older := fun t u part =>
    earlier t.index (contains_iff_lt.mp (contains_of_part part)) u (part_iff.mp part)
  exact older.acyclic

theorem part_iff_of_read (known : pool.read t = .ok e) :
    pool.Part t u ↔ u ∈ e.children := by
  rw [part_iff, expr, known]

/-- Handles that were given out and differ are no more than there are types. -/
theorem length_le_size {path : List TypeId} (distinct : path.Nodup)
    (given : ∀ t ∈ path, pool.contains t = true) : path.length ≤ pool.size := by
  have distinct' : (path.map TypeId.index).Nodup :=
    distinct.map fun a b same => TypeId.ext same
  have within : path.map TypeId.index ⊆ List.range pool.size := by
    intro i member
    obtain ⟨t, inside, rfl⟩ := List.mem_map.mp member
    exact List.mem_range.mpr (contains_iff_lt.mp (given t inside))
  have short := (List.subperm_of_subset distinct' within).length_le
  rwa [List.length_map, List.length_range] at short

/-- The text of a type is found below a path of types in which it occurs, if the depth that
is left and the path are longer than there are types. -/
theorem Laid.exists_formatWithin (laid : pool.Laid) (names : Names) {depth : Nat}
    {path : List TypeId} (ends : ¬ pool.Endless t) (distinct : path.Nodup)
    (above : ∀ u ∈ path, Relation.TransGen pool.Part u t)
    (enough : pool.size < depth + path.length) :
    ∃ text, pool.formatWithin names depth t = .ok text := by
  induction depth generalizing t path with
  | zero =>
    have given : ∀ u ∈ path, pool.contains u = true := by
      intro u member
      obtain ⟨v, first, _⟩ := Relation.TransGen.head'_iff.mp (above u member)
      exact contains_of_part first
    have short := length_le_size distinct given
    omega
  | succ depth ih =>
    obtain ⟨e, known⟩ := laid.readable t
    have parts : ∀ u ∈ e.children, ∃ text, pool.formatWithin names depth u = .ok text := by
      intro u child
      have part : pool.Part t u := (part_iff_of_read known).mpr child
      have fresh : t ∉ path := fun again => ends ⟨t, .refl, above t again⟩
      refine ih ?_ (List.nodup_cons.mpr ⟨fresh, distinct⟩) ?_ ?_
      · rintro ⟨v, reaches, loops⟩
        exact ends ⟨v, .head part reaches, loops⟩
      · intro v member
        rcases List.mem_cons.mp member with rfl | member
        · exact .single part
        · exact .tail (above v member) part
      · rw [List.length_cons]
        omega
    rw [formatWithin, known]
    cases e with
    | pointer target =>
      obtain ⟨text, written⟩ := parts target List.mem_cons_self
      exact ⟨_, by simp only [Answer.ok_bind, written]; rfl⟩
    | array elem length =>
      obtain ⟨text, written⟩ := parts elem List.mem_cons_self
      exact ⟨_, by simp only [Answer.ok_bind, written]; rfl⟩
    | function result params =>
      obtain ⟨head, written⟩ := parts result (List.mem_append_right params List.mem_cons_self)
      obtain ⟨inside, written'⟩ := Answer.exists_mapM (l := params)
        fun u member => parts u (List.mem_append_left [result] member)
      exact ⟨_, by simp only [Answer.ok_bind, written, written']; rfl⟩
    | _ => exact ⟨_, rfl⟩

/-- A type in which no type occurs that occurs in itself has a text. -/
theorem Laid.exists_write (laid : pool.Laid) (names : Names) (ends : ¬ pool.Endless t) :
    ∃ text, pool.write names t = .ok text := by
  refine laid.exists_formatWithin names ends List.nodup_nil (fun u => List.not_mem_nil.elim) ?_
  exact Nat.lt_succ_self pool.size

/-- All types that occur in the type are there, and all names. -/
def Known (pool : Pool) (names : Names) (t : TypeId) : Prop :=
  ∀ u, pool.Reaches t u → pool.contains u = true ∧
    ∀ n ∈ (pool.expr u).names, ∃ s, names.Reads n s

theorem Known.part (known : pool.Known names t) (part : pool.Part t u) : pool.Known names u :=
  fun v reaches => known v (.head part reaches)

/-- The text of a type is the same in every later pool and with more names. -/
theorem Known.formatWithin (known : pool.Known names t) (ext : Extends pool later)
    (extends' : names.Extends more) {depth depth' : Nat} (le : depth ≤ depth') {text : String}
    (written : pool.formatWithin names depth t = .ok text) :
    later.formatWithin more depth' t = .ok text := by
  induction depth generalizing t text depth' with
  | zero => cases written
  | succ depth ih =>
    obtain ⟨depth', rfl⟩ : ∃ k, depth' = k + 1 := ⟨depth' - 1, by omega⟩
    rw [Pool.formatWithin] at written ⊢
    obtain ⟨e, read, written⟩ := Answer.bind_eq_ok_iff.mp written
    obtain ⟨contained, named⟩ := known t .refl
    have same : pool.expr t = e := by rw [expr, read]
    rw [same] at named
    have inside : ∀ u ∈ e.children, ∀ text, pool.formatWithin names depth u = .ok text →
        later.formatWithin more depth' u = .ok text := by
      intro u child text written
      exact ih (known.part ((part_iff_of_read read).mpr child)) (Nat.le_of_succ_le_succ le)
        written
    rw [ext.read contained read]
    simp only [Answer.ok_bind] at written ⊢
    -- a name reads the same with more names
    have called : ∀ n ∈ e.names, more.text n = names.text n := by
      intro n member
      obtain ⟨s, reads⟩ := named n member
      rw [reads.text, (extends'.reads reads).text]
    cases e with
    | invalid => exact written
    | primitive name | typeAlias _ name _ | aggregate _ name =>
      simp only [called name List.mem_cons_self]
      exact written
    | pointer target =>
      obtain ⟨inner, first, written⟩ := Answer.bind_eq_ok_iff.mp written
      simp only [inside target List.mem_cons_self inner first, Answer.ok_bind]
      exact written
    | array elem length =>
      obtain ⟨inner, first, written⟩ := Answer.bind_eq_ok_iff.mp written
      simp only [inside elem List.mem_cons_self inner first, Answer.ok_bind]
      exact written
    | function result params =>
      obtain ⟨head, first, written⟩ := Answer.bind_eq_ok_iff.mp written
      obtain ⟨texts, second, written⟩ := Answer.bind_eq_ok_iff.mp written
      have last : result ∈ params ++ [result] := List.mem_append_right params List.mem_cons_self
      have second' := Answer.mapM_eq_ok_of_imp second
        fun u member => inside u (List.mem_append_left [result] member)
      simp only [inside result last head first, second', Answer.ok_bind]
      exact written

theorem Extends.size_le (ext : Extends pool later) : pool.size ≤ later.size := by
  rcases Nat.eq_zero_or_pos pool.size with none | some
  · omega
  · have last : pool.contains ⟨pool.size - 1⟩ = true :=
      contains_iff_lt.mpr (Nat.sub_lt some Nat.zero_lt_one)
    have there := contains_iff_lt.mp (ext.contains last)
    have : pool.size - 1 < later.size := there
    omega

theorem Known.write (known : pool.Known names t) (ext : Extends pool later)
    (extends' : names.Extends more) {text : String} (written : pool.write names t = .ok text) :
    later.write more t = .ok text :=
  known.formatWithin ext extends' (Nat.succ_le_succ ext.size_le) written

end Pool

end Scoping
