import Scoping.Proofs.Consistency

/-!
# Looking names up

A look-up asks for superclasses, scope after scope. It has an answer as soon as the
superclasses that it asks for have one, and it depends on nothing else. What it
finds is defined in one of the scopes around, or in the body of a class that was
asked there.
-/

namespace Scoping

namespace Table

variable {t : Table} {up other : Ancestry} {P : SymbolId → Prop} {x : SymbolId} {n : Name}

/-- Superclasses are known of all symbols with a property, and have it themselves. -/
structure Settles (t : Table) (up : Ancestry) (P : SymbolId → Prop) : Prop where
  given : ∀ {x}, P x → t.HasSymbol x
  answers : ∀ {x}, P x → ∃ r, up x = .ok r ∧ ∀ above, r = some above → P above

theorem kind_of_symbol {a : Symbol} (read : t.symbol x = .ok a) : t.kind x = .ok a.kind := by
  rw [kind, read]
  rfl

theorem body?_of_symbol {a : Symbol} (read : t.symbol x = .ok a) :
    t.body? x = .ok a.form.body? := by
  rw [body?, read]
  rfl

theorem body?_eq_ok_iff {b : Option ScopeId} :
    t.body? x = .ok b ↔ ∃ a, t.symbol x = .ok a ∧ a.form.body? = b := by
  rw [body?, Answer.bind_eq_ok_iff]
  simp

/-- Distinct symbols that were all given out are no more than there are. -/
theorem length_le_of_nodup {seen : List SymbolId} (distinct : seen.Nodup)
    (given : ∀ y ∈ seen, t.HasSymbol y) : seen.length ≤ t.symbols.size := by
  have indices : (seen.map SymbolId.index).Nodup :=
    distinct.map fun a b same => SymbolId.ext same
  have within : seen.map SymbolId.index ⊆ List.range t.symbols.size := by
    intro i member
    obtain ⟨y, inside, rfl⟩ := List.mem_map.mp member
    exact List.mem_range.mpr (given y inside)
  have short := (List.subperm_of_subset indices within).length_le
  rwa [List.length_map, List.length_range] at short

/-- The ascent stops, because every step meets a symbol that was not seen before. -/
theorem Settles.ancestorsWithin (settles : t.Settles up P) {steps : Nat} {seen : List SymbolId}
    (start : P x) (distinct : seen.Nodup) (given : ∀ y ∈ seen, t.HasSymbol y)
    (enough : t.symbols.size < steps + seen.length) :
    ∃ l, ancestorsWithin up steps seen x = .ok l ∧ ∀ y ∈ l, P y := by
  induction steps generalizing x seen with
  | zero =>
    have short := length_le_of_nodup distinct given
    omega
  | succ steps ih =>
    obtain ⟨r, known, stays⟩ := settles.answers start
    rw [Table.ancestorsWithin, known]
    cases r with
    | none => exact ⟨[], rfl, by simp⟩
    | some above =>
      have next := stays above rfl
      by_cases again : above ∈ seen
      · refine ⟨[], ?_, by simp⟩
        simp [again]
      · have given' : ∀ y ∈ above :: seen, t.HasSymbol y := by
          intro y member
          rcases List.mem_cons.mp member with rfl | member
          · exact settles.given next
          · exact given y member
        have enough' : t.symbols.size < steps + (above :: seen).length := by
          rw [List.length_cons]
          omega
        obtain ⟨l, found, inside⟩ :=
          ih next (List.nodup_cons.mpr ⟨again, distinct⟩) given' enough'
        refine ⟨above :: l, ?_, ?_⟩
        · simp [again, found]
        · intro y member
          rcases List.mem_cons.mp member with rfl | member
          · exact next
          · exact inside y member

theorem Settles.chainVia (settles : t.Settles up P) (start : P x) :
    ∃ l, t.chainVia up x = .ok l ∧ ∀ y ∈ l, P y := by
  have given : ∀ y ∈ [x], t.HasSymbol y := by
    intro y member
    rw [List.mem_singleton.mp member]
    exact settles.given start
  have enough : t.symbols.size < t.symbols.size + 1 + [x].length := by
    rw [List.length_singleton]
    omega
  obtain ⟨l, found, inside⟩ :=
    settles.ancestorsWithin start (List.nodup_singleton x) given enough
  refine ⟨x :: l, ?_, ?_⟩
  · rw [Table.chainVia, found]
    rfl
  · intro y member
    rcases List.mem_cons.mp member with rfl | member
    · exact start
    · exact inside y member

/-- What the body of a symbol finds by a name; nothing when there is no body. -/
def foundIn (t : Table) (n : Name) (y : SymbolId) : Answer (Option SymbolId) := do
  match ← t.body? y with
  | none => return none
  | some body => return (← t.scope body).find? n

theorem Consistent.foundIn (consistent : t.Consistent) (n : Name) {y : SymbolId}
    (given : t.HasSymbol y) :
    ∃ r, t.foundIn n y = .ok r ∧ ∀ m, r = some m →
      ∃ s c, t.body? y = .ok (some s) ∧ t.scope s = .ok c ∧ c.find? n = some m := by
  obtain ⟨a, symbol⟩ := hasSymbol_iff.mp given
  have read := body?_of_symbol symbol
  rw [Table.foundIn, read]
  cases body : a.form.body? with
  | none => exact ⟨none, rfl, by simp⟩
  | some s =>
    obtain ⟨c, scope, _⟩ := consistent.body symbol body
    refine ⟨c.find? n, ?_, ?_⟩
    · simp [scope]
    · intro m found
      exact ⟨s, c, rfl, scope, found⟩

theorem Consistent.findSomeM?_foundIn (consistent : t.Consistent) (n : Name) {l : List SymbolId}
    (given : ∀ y ∈ l, t.HasSymbol y) :
    ∃ r, l.findSomeM? (t.foundIn n) = .ok r ∧ ∀ m, r = some m → ∃ y ∈ l,
      ∃ s c, t.body? y = .ok (some s) ∧ t.scope s = .ok c ∧ c.find? n = some m := by
  induction l with
  | nil => exact ⟨none, rfl, by simp⟩
  | cons y l ih =>
    obtain ⟨r, here, sound⟩ := consistent.foundIn n (given y List.mem_cons_self)
    rw [List.findSomeM?_cons, here]
    cases r with
    | some m =>
      refine ⟨some m, rfl, ?_⟩
      rintro _ ⟨⟩
      exact ⟨y, List.mem_cons_self, sound m rfl⟩
    | none =>
      obtain ⟨r, later, sound'⟩ := ih fun z member => given z (List.mem_cons_of_mem y member)
      refine ⟨r, by simp [later], ?_⟩
      intro m found
      obtain ⟨z, member, place⟩ := sound' m found
      exact ⟨z, List.mem_cons_of_mem y member, place⟩

theorem memberVia_eq (t : Table) (up : Ancestry) (x : SymbolId) (n : Name) :
    t.memberVia up x n = t.chainVia up x >>= fun l => l.findSomeM? (t.foundIn n) := rfl

/-- A member is found in the body of a symbol of the chain. -/
theorem Settles.memberVia (settles : t.Settles up P) (consistent : t.Consistent) (start : P x) :
    ∃ r, t.memberVia up x n = .ok r ∧ ∀ m, r = some m → ∃ y, P y ∧
      ∃ s c, t.body? y = .ok (some s) ∧ t.scope s = .ok c ∧ c.find? n = some m := by
  obtain ⟨l, chain, inside⟩ := settles.chainVia start
  obtain ⟨r, found, sound⟩ :=
    consistent.findSomeM?_foundIn n fun y member => settles.given (inside y member)
  refine ⟨r, ?_, ?_⟩
  · rw [memberVia_eq, chain, Answer.ok_bind, found]
  · intro m result
    obtain ⟨y, member, place⟩ := sound m result
    exact ⟨y, inside y member, place⟩

/-! ### What a look-up depends on -/

theorem Settles.ancestorsWithin_congr (settles : t.Settles up P)
    (agree : ∀ {y}, P y → other y = up y) {steps : Nat} {seen : List SymbolId} (start : P x) :
    Table.ancestorsWithin other steps seen x = Table.ancestorsWithin up steps seen x := by
  induction steps generalizing x seen with
  | zero => rfl
  | succ steps ih =>
    obtain ⟨r, known, stays⟩ := settles.answers start
    rw [Table.ancestorsWithin, Table.ancestorsWithin, agree start, known]
    cases r with
    | none => rfl
    | some above => simp only [Answer.ok_bind, ih (stays above rfl)]

theorem Settles.memberVia_congr (settles : t.Settles up P)
    (agree : ∀ {y}, P y → other y = up y) (start : P x) :
    t.memberVia other x n = t.memberVia up x n := by
  rw [memberVia_eq, memberVia_eq, Table.chainVia, Table.chainVia,
    settles.ancestorsWithin_congr agree start]

/-- The bodies of structs and classes met on the way outwards from a scope belong to
symbols with the property. -/
def Meets (t : Table) (path : List ScopeId) (P : SymbolId → Prop) : Prop :=
  ∀ s ∈ path, ∀ c owner, t.scope s = .ok c → c.owner? = some owner → P owner

theorem Settles.answerVia_congr (settles : t.Settles up P)
    (agree : ∀ {y}, P y → other y = up y) {c : Scope}
    (owned : ∀ owner, c.owner? = some owner → P owner) :
    t.answerVia other c n = t.answerVia up c n := by
  rw [answerVia, answerVia]
  cases owner : c.owner? with
  | none => rfl
  | some o => simp only [settles.memberVia_congr agree (owned o owner)]

theorem Settles.lookupWithin_congr (settles : t.Settles up P)
    (agree : ∀ {y}, P y → other y = up y) (steps : Nat) {s : ScopeId} {path : List ScopeId}
    (walk : Walk t.enclosing? s path) (meets : t.Meets path P) :
    t.lookupWithin other n steps s = t.lookupWithin up n steps s := by
  induction steps generalizing s path with
  | zero => rfl
  | succ steps ih =>
    rw [lookupWithin, lookupWithin]
    cases read : t.scope s with
    | error e => rfl
    | ok c =>
      have here := settles.answerVia_congr (n := n) agree
        fun owner owned => meets s walk.mem_start c owner read owned
      simp only [Answer.ok_bind, here]
      cases walk with
      | stop ends =>
        rw [enclosing?_of_scope read] at ends
        simp only [Except.ok.inj ends]
      | step goes further =>
        rw [enclosing?_of_scope read] at goes
        have rest := ih further fun q member => meets q (List.mem_cons_of_mem s member)
        simp only [Except.ok.inj goes, rest]

/-- What a scope answers is defined in it, or in the body of a symbol that was asked. -/
theorem Settles.answerVia (settles : t.Settles up P) (consistent : t.Consistent) {s : ScopeId}
    {c : Scope} (read : t.scope s = .ok c) (owned : ∀ owner, c.owner? = some owner → P owner) :
    ∃ r, t.answerVia up c n = .ok r ∧ ∀ m, r = some m → c.find? n = some m ∨ ∃ y, P y ∧
      ∃ s c, t.body? y = .ok (some s) ∧ t.scope s = .ok c ∧ c.find? n = some m := by
  rw [Table.answerVia]
  cases owner : c.owner? with
  | none => exact ⟨c.find? n, rfl, fun m found => .inl found⟩
  | some o =>
    obtain ⟨a, symbol, _⟩ := consistent.owner read owner
    have kind := kind_of_symbol symbol
    by_cases aggregate : a.kind.isAggregate = true
    · obtain ⟨r, found, sound⟩ := settles.memberVia consistent (n := n) (owned o owner)
      refine ⟨r, ?_, fun m result => .inr (sound m result)⟩
      simp [kind, aggregate, found]
    · refine ⟨c.find? n, ?_, fun m found => .inl found⟩
      simp [kind, aggregate]

/-- A look-up has an answer; what it finds is defined on the way outwards, or in the
body of a symbol that was asked. -/
theorem Settles.lookupWithin (settles : t.Settles up P) (consistent : t.Consistent)
    {s : ScopeId} {path : List ScopeId} {steps : Nat} (walk : Walk t.enclosing? s path)
    (meets : t.Meets path P) (enough : path.length ≤ steps) :
    ∃ r, t.lookupWithin up n steps s = .ok r ∧ ∀ m, r = some m → ∃ q d, t.scope q = .ok d ∧
      d.find? n = some m ∧ (q ∈ path ∨ ∃ y, P y ∧ t.body? y = .ok (some q)) := by
  induction walk generalizing steps with
  | @stop s ends =>
    obtain ⟨c, read, inside⟩ := enclosing?_eq_ok_iff.mp ends
    obtain ⟨steps, rfl⟩ : ∃ k, steps = k + 1 := ⟨steps - 1, by simp at enough; omega⟩
    obtain ⟨r, found, sound⟩ := settles.answerVia consistent (n := n) read
      fun owner owned => meets s List.mem_cons_self c owner read owned
    refine ⟨r, ?_, ?_⟩
    · cases r with
      | none => simp [Table.lookupWithin, read, found, inside]
      | some m => simp [Table.lookupWithin, read, found]
    · intro m result
      rcases sound m result with here | ⟨y, asked, q, d, body, scope, there⟩
      · exact ⟨s, c, read, here, .inl List.mem_cons_self⟩
      · exact ⟨q, d, scope, there, .inr ⟨y, asked, body⟩⟩
  | @step s o path goes further ih =>
    obtain ⟨c, read, inside⟩ := enclosing?_eq_ok_iff.mp goes
    rw [List.length_cons] at enough
    obtain ⟨steps, rfl⟩ : ∃ k, steps = k + 1 := ⟨steps - 1, by omega⟩
    obtain ⟨r, found, sound⟩ := settles.answerVia consistent (n := n) read
      fun owner owned => meets s List.mem_cons_self c owner read owned
    cases r with
    | some m =>
      refine ⟨some m, by simp [Table.lookupWithin, read, found], ?_⟩
      rintro _ ⟨⟩
      rcases sound m rfl with here | ⟨y, asked, q, d, body, scope, there⟩
      · exact ⟨s, c, read, here, .inl List.mem_cons_self⟩
      · exact ⟨q, d, scope, there, .inr ⟨y, asked, body⟩⟩
    | none =>
      obtain ⟨r, later, sound'⟩ := ih
        (fun q member => meets q (List.mem_cons_of_mem s member))
        (Nat.le_of_succ_le_succ enough)
      refine ⟨r, by simp [Table.lookupWithin, read, found, inside, later], ?_⟩
      intro m result
      obtain ⟨q, d, scope, there, place⟩ := sound' m result
      refine ⟨q, d, scope, there, place.imp ?_ id⟩
      exact fun member => List.mem_cons_of_mem s member

/-! ### Look-ups see the aspect only -/

namespace SameAspect

variable {u : Table} {c d : Scope}

theorem chainVia_eq (same : SameAspect t u) : t.chainVia up x = u.chainVia up x := by
  rw [chainVia, chainVia, same.size_symbols]

theorem foundIn_eq (same : SameAspect t u) : t.foundIn n = u.foundIn n := by
  funext y
  rw [foundIn, foundIn, same.body?_eq]
  cases u.body? y with
  | error e => rfl
  | ok body =>
    cases body with
    | none => rfl
    | some s =>
      exact same.read_scope (fun a b aspect => congrFun (Scope.aspect_eq_iff.mp aspect).2.2 n) s

theorem memberVia_eq (same : SameAspect t u) : t.memberVia up x n = u.memberVia up x n := by
  rw [Table.memberVia_eq, Table.memberVia_eq, same.chainVia_eq, same.foundIn_eq]

theorem answerVia_eq (same : SameAspect t u) (aspect : c.aspect = d.aspect) :
    t.answerVia up c n = u.answerVia up d n := by
  obtain ⟨kind, _, find⟩ := Scope.aspect_eq_iff.mp aspect
  rw [answerVia, answerVia, Scope.owner?_eq kind, find, same.kind_eq]
  simp only [same.memberVia_eq]

theorem lookupWithin_eq (same : SameAspect t u) {steps : Nat} {s : ScopeId} :
    t.lookupWithin up n steps s = u.lookupWithin up n steps s := by
  induction steps generalizing s with
  | zero => rfl
  | succ steps ih =>
    rw [lookupWithin, lookupWithin]
    cases read : t.scope s with
    | error e => simp only [same.scope_error read, Answer.error_bind]
    | ok c =>
      obtain ⟨d, read', aspect⟩ := same.scope read
      simp only [read', Answer.ok_bind, same.answerVia_eq aspect.symm,
        (Scope.aspect_eq_iff.mp aspect).2.1, ih]

theorem classOnly_eq (same : SameAspect t u) : t.classOnly = u.classOnly := by
  funext y
  rw [classOnly, classOnly, same.kind_eq]

theorem superclassVia_eq (same : SameAspect t u) : t.superclassVia up x = u.superclassVia up x := by
  rw [superclassVia, superclassVia]
  cases read : t.symbol x with
  | error e => simp only [same.symbol_error read, Answer.error_bind]
  | ok a =>
    obtain ⟨b, read', aspect⟩ := same.symbol read
    rw [Symbol.aspect_eq_iff] at aspect
    simp only [read', Answer.ok_bind, aspect.2.2.2.1, aspect.2.2.2.2, lookupVia, outwardSteps,
      same.size_scopes, same.lookupWithin_eq, same.classOnly_eq]

theorem superclassWithin_eq (same : SameAspect t u) (rounds : Nat) :
    t.superclassWithin rounds = u.superclassWithin rounds := by
  induction rounds with
  | zero => rfl
  | succ rounds ih =>
    funext y
    rw [superclassWithin, superclassWithin, ih, same.superclassVia_eq]

theorem superclass_eq (same : SameAspect t u) : t.superclass = u.superclass := by
  rw [superclass, superclass, outwardSteps, outwardSteps, same.size_scopes,
    same.superclassWithin_eq]

theorem chain_eq (same : SameAspect t u) : t.chain = u.chain := by
  funext y
  rw [chain, chain, same.superclass_eq, same.chainVia_eq]

theorem memberNamed_eq (same : SameAspect t u) : t.memberNamed = u.memberNamed := by
  funext y name
  rw [memberNamed, memberNamed, same.superclass_eq, same.memberVia_eq]

theorem kindOnly_eq (same : SameAspect t u) : t.kindOnly = u.kindOnly := by
  funext kind found
  cases found with
  | none => rfl
  | some y => rw [kindOnly, kindOnly, same.kind_eq]

theorem methodNamed_eq (same : SameAspect t u) : t.methodNamed = u.methodNamed := by
  funext y name
  rw [methodNamed, methodNamed, same.memberNamed_eq, same.kindOnly_eq]

theorem pathWithin_eq (same : SameAspect t u) {steps : Nat} {s : ScopeId} :
    t.pathWithin steps s = u.pathWithin steps s := by
  induction steps generalizing s with
  | zero => rfl
  | succ steps ih => simp only [pathWithin, same.enclosing?_eq, ih]

theorem enclosingPath_eq (same : SameAspect t u) : t.enclosingPath = u.enclosingPath := by
  funext s
  rw [enclosingPath, enclosingPath, outwardSteps, outwardSteps, same.size_scopes,
    same.pathWithin_eq]

theorem superclassChain_eq (same : SameAspect t u) : t.superclassChain = u.superclassChain := by
  funext y
  rw [superclassChain, superclassChain, same.chain_eq]

theorem resolveName_eq (same : SameAspect t u) : t.resolveName = u.resolveName := by
  funext s name
  rw [resolveName, resolveName, lookupVia, lookupVia, outwardSteps, outwardSteps,
    same.size_scopes, same.superclass_eq, same.lookupWithin_eq]

theorem parentScope?_eq (same : SameAspect t u) : t.parentScope? = u.parentScope? := by
  funext s
  rw [parentScope?, parentScope?, same.superclass_eq, same.body?_eq]
  cases read : t.scope s with
  | error e => simp only [same.scope_error read, Answer.error_bind]
  | ok c =>
    obtain ⟨d, read', aspect⟩ := same.scope read
    rw [Scope.aspect_eq_iff] at aspect
    simp only [read', Answer.ok_bind, Scope.owner?_eq aspect.1, aspect.2.1]

/-! ### Look-ups of strings -/

theorem resolve_eq (same : SameAspect t u) (names : t.names = u.names) :
    t.resolve = u.resolve := by
  funext s text
  rw [resolve, resolve, names, same.resolveName_eq]

theorem find?_eq (same : SameAspect t u) (names : t.names = u.names) :
    Table.find? t = Table.find? u := by
  funext s text
  rw [Table.find?, Table.find?, names]
  cases u.names.find? text with
  | none => rfl
  | some n =>
    exact same.read_scope (fun a b aspect => congrFun (Scope.aspect_eq_iff.mp aspect).2.2 n) s

theorem resolveMember_eq (same : SameAspect t u) (names : t.names = u.names) :
    t.resolveMember = u.resolveMember := by
  funext y text
  rw [resolveMember, resolveMember, names, same.memberNamed_eq]

theorem resolveField_eq (same : SameAspect t u) (names : t.names = u.names) :
    t.resolveField = u.resolveField := by
  funext y text
  rw [resolveField, resolveField, same.resolveMember_eq names, same.kindOnly_eq]

theorem resolveMethod_eq (same : SameAspect t u) (names : t.names = u.names) :
    t.resolveMethod = u.resolveMethod := by
  funext y text
  rw [resolveMethod, resolveMethod, same.resolveMember_eq names, same.kindOnly_eq]

end SameAspect

end Table

end Scoping
