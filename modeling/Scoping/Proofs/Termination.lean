import Scoping.Proofs.Ascent
import Scoping.Proofs.Run

/-!
# Look-ups come to an end

To tell the superclass of a class, its name is looked up from the scope where the
class is defined, and the superclasses of the classes around may be asked for on
the way. These lie less deep than the class itself. What is found is defined
around the class, or in a class that was asked, and a class found this way lies no
deeper than the class that names it. So the rounds of `superclass` suffice, and
one round more changes nothing.
-/

namespace Scoping

namespace Table

variable {t : Table} {up : Ancestry} {s : ScopeId} {x y : SymbolId} {a : Symbol} {n : Name}
  {d k : Nat}

/-- How many scopes there are from the body of a symbol outwards, the body included. -/
def depth (t : Table) (x : SymbolId) : Answer Nat := do
  match ← t.body? x with
  | none => return 0
  | some body => return (← t.enclosingPath body).length

/-- The ancestry for symbols less deep than the bound; to ask for another is a fault. -/
def shallower (t : Table) (bound : Nat) (up : Ancestry) : Ancestry := fun x => do
  if (← t.depth x) < bound then up x else .error .endless

/-- The symbol has a body that lies no deeper than `d`. -/
def Lies (t : Table) (d : Nat) (x : SymbolId) : Prop :=
  ∃ body path, t.body? x = .ok (some body) ∧ Walk t.enclosing? body path ∧ path.length ≤ d

theorem Lies.given (lies : t.Lies d x) : t.HasSymbol x := by
  obtain ⟨body, _, read, _⟩ := lies
  obtain ⟨a, symbol, _⟩ := body?_eq_ok_iff.mp read
  exact hasSymbol_iff.mpr ⟨a, symbol⟩

theorem Lies.mono (lies : t.Lies d x) (le : d ≤ k) : t.Lies k x := by
  obtain ⟨body, path, read, walk, short⟩ := lies
  exact ⟨body, path, read, walk, Nat.le_trans short le⟩

theorem Lies.pos (lies : t.Lies d x) : 0 < d := by
  obtain ⟨body, path, _, walk, short⟩ := lies
  have := walk.length_pos
  omega

theorem depth_eq_ok_of_body {body : ScopeId} {path : List ScopeId}
    (read : t.body? x = .ok (some body)) (walk : Walk t.enclosing? body path) :
    t.depth x = .ok path.length := by
  have found := enclosingPath_eq_ok_iff.mpr walk
  rw [depth, read]
  simp only [Answer.ok_bind, found, Answer.pure_eq_ok]

/-- Every symbol has a depth; it is 0 just for the symbols without a body. -/
theorem Consistent.depth (consistent : t.Consistent) (given : t.HasSymbol x) :
    (t.body? x = .ok none ∧ t.depth x = .ok 0) ∨ ∃ d, t.depth x = .ok d ∧ t.Lies d x := by
  obtain ⟨a, symbol⟩ := hasSymbol_iff.mp given
  have read := body?_of_symbol symbol
  cases body : a.form.body? with
  | none =>
    rw [body] at read
    refine .inl ⟨read, ?_⟩
    rw [Table.depth, read]
    rfl
  | some b =>
    rw [body] at read
    obtain ⟨c, scope, _⟩ := consistent.body symbol body
    obtain ⟨path, walk⟩ := consistent.rooted (hasScope_iff.mpr ⟨c, scope⟩)
    exact .inr ⟨path.length, depth_eq_ok_of_body read walk, b, path, read, walk, Nat.le_refl _⟩

theorem Lies.depth_le (lies : t.Lies d x) : ∃ e, t.depth x = .ok e ∧ e ≤ d := by
  obtain ⟨body, path, read, walk, short⟩ := lies
  exact ⟨path.length, depth_eq_ok_of_body read walk, short⟩

/-- A body met on a way outwards lies no deeper than the way is long. -/
theorem Consistent.meets (consistent : t.Consistent) {path : List ScopeId}
    (walk : Walk t.enclosing? s path) (short : path.length ≤ d) : t.Meets path (t.Lies d) := by
  intro q member c owner read owned
  obtain ⟨a, symbol, body⟩ := consistent.owner read owned
  obtain ⟨before, after, split, rest⟩ := walk.from_mem member
  refine ⟨q, after, ?_, rest, ?_⟩
  · rw [body?_of_symbol symbol, body]
  · have := walk.length_le_of_mem member rest
    omega

/-- The scope where a class is defined lies less deep than the class. -/
theorem Lies.around (consistent : t.Consistent) (lies : t.Lies (d + 1) x)
    (symbol : t.symbol x = .ok a) (home : a.owningScope? = some s) :
    ∃ path, Walk t.enclosing? s path ∧ path.length ≤ d := by
  obtain ⟨body, path, read, walk, short⟩ := lies
  rw [body?_of_symbol symbol] at read
  obtain ⟨c, scope, _, around⟩ := consistent.body symbol (Except.ok.inj read)
  have goes := enclosing?_of_scope scope
  rw [around, home] at goes
  cases walk with
  | stop ends => rw [goes] at ends; cases ends
  | step goes' rest =>
    cases Except.ok.inj (goes.symm.trans goes')
    exact ⟨_, rest, Nat.le_of_succ_le_succ short⟩

/-- A class that is defined in a scope lies one deeper than the scope. -/
theorem Consistent.lies_of_found (consistent : t.Consistent) {c : Scope} {path : List ScopeId}
    (read : t.scope s = .ok c) (found : c.find? n = some y) (walk : Walk t.enclosing? s path)
    (short : path.length ≤ d) : ∃ a, t.symbol y = .ok a ∧
      (a.kind = .classType → t.Lies (d + 1) y) := by
  obtain ⟨listed, _⟩ := consistent.found read found
  obtain ⟨a, symbol, home, _⟩ := consistent.member read listed
  refine ⟨a, symbol, fun kind => ?_⟩
  have has : ∃ b, a.form.body? = some b := by
    rw [Symbol.kind] at kind
    cases form : a.form with
    | classType layout superclass => exact ⟨layout.body, rfl⟩
    | _ => rw [form] at kind; cases kind
  obtain ⟨b, body⟩ := has
  obtain ⟨e, scope, _, around⟩ := consistent.body symbol body
  have goes := enclosing?_of_scope scope
  rw [around, home] at goes
  refine ⟨b, b :: path, ?_, .step goes walk, Nat.succ_le_succ short⟩
  rw [body?_of_symbol symbol, body]

/-- What has no body names no superclass, so nothing is asked. -/
theorem superclassVia_of_body_none (read : t.body? x = .ok none) (up : Ancestry) :
    t.superclassVia up x = .ok none := by
  obtain ⟨a, symbol, body⟩ := body?_eq_ok_iff.mp read
  rw [superclassVia, symbol]
  cases form : a.form with
  | classType layout superclass => rw [form] at body; cases body
  | _ => simp [form, Form.superclassName?]

/-- One round leads from the superclasses up to a depth to those one deeper. -/
theorem Settles.superclassVia (consistent : t.Consistent) (settles : t.Settles up (t.Lies d)) :
    t.Settles (t.superclassVia up) (t.Lies (d + 1)) := by
  refine ⟨Lies.given, ?_⟩
  intro x lies
  obtain ⟨a, symbol⟩ := hasSymbol_iff.mp lies.given
  rw [Table.superclassVia, symbol]
  cases name : a.form.superclassName? with
  | none => exact ⟨none, by simp [name], by simp⟩
  | some n =>
    cases home : a.owningScope? with
    | none => exact ⟨none, by simp [name, home], by simp⟩
    | some s =>
      obtain ⟨path, walk, short⟩ := lies.around consistent symbol home
      have enough := length_walk_le_outwardSteps walk
      obtain ⟨r, found, sound⟩ :=
        settles.lookupWithin (n := n) consistent walk (consistent.meets walk short) enough
      cases r with
      | none => exact ⟨none, by simp [name, home, lookupVia, found], by simp⟩
      | some m =>
        obtain ⟨q, c, scope, there, place⟩ := sound m rfl
        have route : ∃ route, Walk t.enclosing? q route ∧ route.length ≤ d := by
          rcases place with member | ⟨y, ⟨b, route, body, walk', short'⟩, body'⟩
          · obtain ⟨before, after, split, rest⟩ := walk.from_mem member
            have := walk.length_le_of_mem member rest
            exact ⟨after, rest, by omega⟩
          · rw [body] at body'
            cases body'
            exact ⟨route, walk', short'⟩
        obtain ⟨route, walk', short'⟩ := route
        obtain ⟨b, symbol', deep⟩ := consistent.lies_of_found scope there walk' short'
        by_cases kind : b.kind = .classType
        · refine ⟨some m, ?_, ?_⟩
          · simp [name, home, lookupVia, found, classOnly, kind_of_symbol symbol', kind]
          · rintro _ ⟨⟩
            exact deep kind
        · refine ⟨none, ?_, by simp⟩
          simp [name, home, lookupVia, found, classOnly, kind_of_symbol symbol', kind]

theorem hasSymbol_of_superclassWithin {r : Option SymbolId}
    (found : t.superclassWithin k x = .ok r) : t.HasSymbol x := by
  cases k with
  | zero => cases found
  | succ k =>
    obtain ⟨a, symbol, _⟩ := Answer.bind_eq_ok_iff.mp found
    exact hasSymbol_iff.mpr ⟨a, symbol⟩

/-- A round asks only for the superclasses of symbols less deep. -/
theorem Settles.superclassVia_congr (consistent : t.Consistent)
    (settles : t.Settles up (t.Lies d)) {other : Ancestry}
    (agree : ∀ {y}, t.Lies d y → other y = up y) (lies : t.Lies (d + 1) x) :
    t.superclassVia other x = t.superclassVia up x := by
  obtain ⟨a, symbol⟩ := hasSymbol_iff.mp lies.given
  rw [Table.superclassVia, Table.superclassVia, symbol]
  simp only [Answer.ok_bind]
  cases name : a.form.superclassName? with
  | none => rfl
  | some n =>
    cases home : a.owningScope? with
    | none => rfl
    | some s =>
      obtain ⟨path, walk, short⟩ := lies.around consistent symbol home
      have same := settles.lookupWithin_congr (n := n) agree t.outwardSteps walk
        (consistent.meets walk short)
      simp only [lookupVia, same]

/-- As many rounds as a symbol lies deep suffice. -/
theorem Consistent.settles_superclassWithin (consistent : t.Consistent) (le : d ≤ k) :
    t.Settles (t.superclassWithin k) (t.Lies d) := by
  induction k generalizing d with
  | zero =>
    refine ⟨Lies.given, fun lies => ?_⟩
    have := lies.pos
    omega
  | succ k ih =>
    cases d with
    | zero =>
      refine ⟨Lies.given, fun lies => ?_⟩
      have := lies.pos
      omega
    | succ d => exact (ih (Nat.le_of_succ_le_succ le)).superclassVia consistent

theorem Consistent.superclassWithin_succ (consistent : t.Consistent) (lies : t.Lies k x) :
    t.superclassWithin (k + 1) x = t.superclassWithin k x := by
  induction k generalizing x with
  | zero =>
    have := lies.pos
    omega
  | succ k ih =>
    have settles := consistent.settles_superclassWithin (Nat.le_refl k)
    exact settles.superclassVia_congr consistent (fun lies => ih lies) lies

theorem Lies.outwardSteps (lies : t.Lies d x) : t.Lies t.outwardSteps x := by
  obtain ⟨body, path, read, walk, _⟩ := lies
  exact ⟨body, path, read, walk, length_walk_le_outwardSteps walk⟩

/-- One more round does not change what the superclass is. -/
theorem Consistent.superclass_eq (consistent : t.Consistent) (given : t.HasSymbol x) :
    t.superclass x = t.superclassVia t.superclass x := by
  rcases consistent.depth given with ⟨none, _⟩ | ⟨d, _, lies⟩
  · rw [superclassVia_of_body_none none, superclass, Table.outwardSteps, superclassWithin,
      superclassVia_of_body_none none]
  · exact (consistent.superclassWithin_succ lies.outwardSteps).symm

/-- A superclass lies no deeper than the class. -/
theorem Consistent.settles_depth (consistent : t.Consistent) (d : Nat) :
    t.Settles t.superclass (t.Lies d) := by
  refine ⟨Lies.given, fun lies => ?_⟩
  obtain ⟨e, _, le⟩ := lies.depth_le
  rcases consistent.depth lies.given with ⟨none, _⟩ | ⟨f, known, lies'⟩
  · obtain ⟨body, path, read, _⟩ := lies
    rw [none] at read
    cases read
  · obtain ⟨body, path, read, walk, short⟩ := lies
    rw [depth_eq_ok_of_body read walk] at known
    cases known
    have few := length_walk_le_outwardSteps walk
    obtain ⟨r, found, stays⟩ := (consistent.settles_superclassWithin few).answers lies'
    exact ⟨r, found, fun above result => (stays above result).mono short⟩

theorem Consistent.settles (consistent : t.Consistent) :
    t.Settles t.superclass t.HasSymbol := by
  refine ⟨id, fun given => ?_⟩
  rcases consistent.depth given with ⟨none, _⟩ | ⟨d, _, lies⟩
  · refine ⟨Option.none, ?_, by simp⟩
    rw [consistent.superclass_eq given, superclassVia_of_body_none none]
  · obtain ⟨r, found, stays⟩ := (consistent.settles_depth d).answers lies
    exact ⟨r, found, fun above result => (stays above result).given⟩

theorem Consistent.resolveName (consistent : t.Consistent) (given : t.HasScope s) (n : Name) :
    ∃ r, t.resolveName s n = .ok r := by
  obtain ⟨path, walk⟩ := consistent.rooted given
  have enough := length_walk_le_outwardSteps walk
  have meets := consistent.meets walk (Nat.le_refl path.length)
  obtain ⟨r, found, _⟩ :=
    (consistent.settles_depth path.length).lookupWithin (n := n) consistent walk meets enough
  exact ⟨r, found⟩

/-- Every look-up of a reachable table has an answer. The superclass of a class lies no
deeper than the class, and to tell it, only symbols less deep are asked for theirs. -/
theorem Reachable.lookups_end (reachable : t.Reachable) :
    (∀ s, t.HasScope s → ∀ n, ∃ r, t.resolveName s n = .ok r) ∧
    (∀ x, t.HasSymbol x → (∀ n, ∃ r, t.memberNamed x n = .ok r) ∧
      (∃ l, t.chain x = .ok l) ∧ ∃ r, t.superclass x = .ok r) ∧
    (∀ x, t.HasSymbol x → t.superclass x = t.superclassVia t.superclass x) ∧
    (∀ c p, t.superclass c = .ok (some p) →
      ∃ d e, t.depth c = .ok d ∧ t.depth p = .ok e ∧ e ≤ d) ∧
    (∀ c, t.HasSymbol c → ∃ d, t.depth c = .ok d ∧
      t.superclassVia (t.shallower d t.superclass) c = t.superclass c) := by
  have consistent := reachable.consistent
  refine ⟨fun s given n => consistent.resolveName given n, ?_,
    fun x given => consistent.superclass_eq given, ?_, ?_⟩
  · intro x given
    refine ⟨fun n => ?_, ?_, ?_⟩
    · obtain ⟨r, found, _⟩ := consistent.settles.memberVia consistent (n := n) given
      exact ⟨r, found⟩
    · obtain ⟨l, found, _⟩ := consistent.settles.chainVia given
      exact ⟨l, found⟩
    · obtain ⟨r, found, _⟩ := consistent.settles.answers given
      exact ⟨r, found⟩
  · intro c p above
    have given := hasSymbol_of_superclassWithin above
    rcases consistent.depth given with ⟨none, _⟩ | ⟨d, known, lies⟩
    · rw [consistent.superclass_eq given, superclassVia_of_body_none none] at above
      cases above
    · obtain ⟨r, found, stays⟩ := (consistent.settles_depth d).answers lies
      rw [above] at found
      cases found
      obtain ⟨e, known', le⟩ := (stays p rfl).depth_le
      exact ⟨d, e, known, known', le⟩
  · intro c given
    rcases consistent.depth given with ⟨none, known⟩ | ⟨d, known, lies⟩
    · refine ⟨0, known, ?_⟩
      rw [consistent.superclass_eq given, superclassVia_of_body_none none,
        superclassVia_of_body_none none]
    · refine ⟨d, known, ?_⟩
      obtain ⟨d, rfl⟩ : ∃ k, d = k + 1 := ⟨d - 1, by have := lies.pos; omega⟩
      rw [consistent.superclass_eq given]
      refine (consistent.settles_depth d).superclassVia_congr consistent ?_ lies
      intro y asked
      obtain ⟨e, known, le⟩ := asked.depth_le
      rw [shallower, known]
      simp only [Answer.ok_bind]
      exact if_pos (Nat.lt_succ_of_le le)

/-- Two classes that extend each other, in one of them a class that extends itself, and
a class whose body is not placed anywhere. -/
def tangled : Run where
  config := {}
  operations := [
    .declare "A" (.classType (some "B")), .define .global ⟨0⟩,
    .declare "B" (.classType (some "A")), .define .global ⟨1⟩,
    .declare "Inner" (.classType (some "Inner")), .define ⟨2⟩ ⟨2⟩,
    .declare "Deep" (.classType (some "A")), .define ⟨4⟩ ⟨3⟩,
    .declare "Loose" (.classType (some "A"))]
  accepted := by decide +kernel

theorem tangled_lookups_end : tangled.final.Reachable ∧
    (∀ n, ∃ r, tangled.final.resolveName ⟨5⟩ n = .ok r) ∧
    (∀ n, ∃ r, tangled.final.memberNamed ⟨4⟩ n = .ok r) ∧
    (tangled.final.superclass ⟨0⟩).toOption = some (some ⟨1⟩) ∧
    (tangled.final.superclass ⟨1⟩).toOption = some (some ⟨0⟩) ∧
    (tangled.final.superclass ⟨2⟩).toOption = some (some ⟨2⟩) ∧
    (tangled.final.superclass ⟨3⟩).toOption = some (some ⟨0⟩) ∧
    ∃ d e, tangled.final.depth ⟨3⟩ = .ok d ∧ tangled.final.depth ⟨0⟩ = .ok e ∧ e ≤ d := by
  have reachable := tangled.reachable tangled.operations.length
  obtain ⟨resolves, asks, _, descends, _⟩ := Reachable.lookups_end reachable
  have above : tangled.final.superclass ⟨3⟩ = .ok (some ⟨0⟩) := by decide +kernel
  refine ⟨reachable, fun n => resolves ⟨5⟩ (by decide +kernel) n,
    fun n => (asks ⟨4⟩ (by decide +kernel)).1 n, by decide +kernel, by decide +kernel,
    by decide +kernel, by decide +kernel, descends ⟨3⟩ ⟨0⟩ above⟩

end Table

end Scoping
