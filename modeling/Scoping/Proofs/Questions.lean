import Scoping.Proofs.Carried
import Scoping.Proofs.Inward
import Scoping.Proofs.TypeText

/-!
# Questions

A question is answered when all questions that it asks on the way are. On a consistent table
each step of a walk leads to a scope or a symbol that was given out, so that the next entry
can be read.
-/

namespace Scoping

/-- The question has an answer. -/
def Answer.Given {α : Type} (x : Answer α) : Prop := ∃ a, x = .ok a

namespace Answer.Given

variable {α β : Type} {x : Answer α}

theorem bind {f : α → Answer β} (first : x.Given) (rest : ∀ a, x = .ok a → (f a).Given) :
    (x >>= f).Given := exists_bind first rest

theorem map (first : x.Given) (f : α → β) : (do return f (← x) : Answer β).Given :=
  first.bind fun a _ => ⟨f a, rfl⟩

end Answer.Given

namespace Table

variable {t : Table} {s : ScopeId} {x : SymbolId}

/-! ### Entries -/

theorem given_of_hasScope {β : Type} (given : t.HasScope s) (f : Scope → β) :
    (do return f (← t.scope s) : Answer β).Given := Answer.Given.map (hasScope_iff.mp given) f

theorem given_of_hasSymbol {β : Type} (given : t.HasSymbol x) (f : Symbol → β) :
    (do return f (← t.symbol x) : Answer β).Given := Answer.Given.map (hasSymbol_iff.mp given) f

theorem given_kind (given : t.HasSymbol x) : (t.kind x).Given := given_of_hasSymbol given _

theorem given_kindOnly {found : Option SymbolId} (given : ∀ m, found = some m → t.HasSymbol m)
    (kind : Kind) : (t.kindOnly kind found).Given := by
  cases found with
  | none => exact ⟨none, rfl⟩
  | some m => exact (given_kind (given m rfl)).map _

theorem given_find? (given : t.HasScope s) (text : String) : (t.find? s text).Given := by
  rw [find?]
  cases t.names.find? text with
  | none => exact ⟨none, rfl⟩
  | some n => exact given_of_hasScope given _

namespace Consistent

/-! ### Names of scopes and symbols -/

/-- The way outwards is told, and it meets scopes that were given out. -/
theorem exists_enclosingPath (consistent : t.Consistent) (given : t.HasScope s) :
    ∃ path, t.enclosingPath s = .ok path ∧ ∀ q ∈ path, t.HasScope q := by
  obtain ⟨path, walk⟩ := consistent.rooted given
  exact ⟨path, enclosingPath_eq_ok_iff.mpr walk, fun q => hasScope_of_mem_walk walk⟩

theorem given_scopeNames {path : List ScopeId} (consistent : t.Consistent)
    (given : ∀ s ∈ path, t.HasScope s) : (path.mapM t.scopeName).Given :=
  Answer.exists_mapM fun s member => consistent.exists_scopeName (given s member)

theorem given_scopeStackText (consistent : t.Consistent) (given : t.HasScope s)
    (separator : String) : (t.scopeStackText s separator).Given := by
  obtain ⟨path, known, inside⟩ := consistent.exists_enclosingPath given
  rw [scopeStackText, known]
  exact (consistent.given_scopeNames inside).map _

theorem given_qualifier (consistent : t.Consistent) (given : t.HasScope s) (separator : String) :
    (t.qualifier s separator).Given := by
  obtain ⟨path, known, inside⟩ := consistent.exists_enclosingPath given
  rw [qualifier, known]
  exact (consistent.given_scopeNames fun q member => inside q (List.mem_reverse.mp member)).map _

/-- A symbol is called by what stands for its scope and by its name, or by its name alone. -/
theorem given_behindScope {f : ScopeId → Answer String} (consistent : t.Consistent)
    (given : t.HasSymbol x) (scopes : ∀ s, t.HasScope s → (f s).Given) (separator : String) :
    (do match ← t.owningScope? x with
        | none => t.symbolName x
        | some s => return (← f s) ++ separator ++ (← t.symbolName x) : Answer String).Given := by
  obtain ⟨a, symbol⟩ := hasSymbol_iff.mp given
  obtain ⟨text, called⟩ := exists_symbolName given
  rw [owningScope?, symbol]
  cases home : a.owningScope? with
  | none => exact ⟨text, by simpa [home] using called⟩
  | some s =>
    obtain ⟨before, known⟩ := scopes s (consistent.hasScope_of_home symbol home)
    exact ⟨before ++ separator ++ text, by simp [home, known, called]⟩

theorem given_fullyQualifiedName (consistent : t.Consistent) (given : t.HasSymbol x)
    (separator : String) : (t.fullyQualifiedName x separator).Given :=
  consistent.given_behindScope given (fun _ known => consistent.given_qualifier known separator)
    separator

theorem given_scopedName (consistent : t.Consistent) (given : t.HasSymbol x)
    (separator : String) : (t.scopedName x separator).Given :=
  consistent.given_behindScope given (fun _ => consistent.exists_scopeName) separator

theorem given_contentsText (consistent : t.Consistent) (given : t.HasScope s) :
    (t.contentsText s).Given := by
  obtain ⟨l, listed, known⟩ := consistent.exists_allSymbols given
  have names : (l.mapM (t.scopedName · t.config.pathSeparator)).Given :=
    Answer.exists_mapM fun x member => consistent.given_scopedName (known x member) _
  rw [contentsText, listed]
  exact names.map _

/-! ### Members -/

/-- The symbols in the body of a symbol are told, if it has a body. -/
theorem exists_body (consistent : t.Consistent) (given : t.HasSymbol x) :
    t.body? x = .ok none ∨ ∃ s l, t.body? x = .ok (some s) ∧ t.symbolsOf s = .ok l ∧
      ∀ y ∈ l, t.HasSymbol y := by
  obtain ⟨a, symbol⟩ := hasSymbol_iff.mp given
  rw [body?_of_symbol symbol]
  cases body : a.form.body? with
  | none => exact .inl rfl
  | some s =>
    obtain ⟨l, listed, inside⟩ :=
      consistent.exists_symbolsOf (consistent.hasScope_of_body symbol body)
    exact .inr ⟨s, l, rfl, listed, inside⟩

theorem given_definedMembers (consistent : t.Consistent) (given : t.HasSymbol x) (kind : Kind) :
    (t.definedMembers kind x).Given := by
  rw [Table.definedMembers]
  rcases consistent.exists_body given with none | ⟨s, l, body, listed, inside⟩
  · exact ⟨[], by rw [none]; rfl⟩
  · have kinds : ∀ y ∈ l, (return (← t.kind y) = kind : Answer Bool).Given :=
      fun y member => (given_kind (inside y member)).map _
    obtain ⟨listed', filtered, _⟩ := Answer.exists_filterM kinds
    refine ⟨listed', ?_⟩
    simp only [body, listed, Answer.ok_bind]
    exact filtered

theorem given_countInBody (consistent : t.Consistent) (given : t.HasSymbol x)
    (p : Kind → Bool) : (t.countInBody p x).Given := by
  rw [countInBody]
  rcases consistent.exists_body given with none | ⟨s, l, body, listed, inside⟩
  · exact ⟨0, by rw [none]; rfl⟩
  · have kinds : (l.mapM t.kind).Given :=
      Answer.exists_mapM fun y member => given_kind (inside y member)
    simp only [body, listed, Answer.ok_bind]
    exact kinds.map _

theorem given_visibleMembers (consistent : t.Consistent) (given : t.HasSymbol x) (kind : Kind) :
    (t.visibleMembers kind x).Given := by
  obtain ⟨l, chain, _⟩ := consistent.exists_chain given
  exact ⟨_, consistent.visibleMembers given chain kind⟩

/-! ### Look-ups -/

theorem exists_resolveMember (consistent : t.Consistent) (given : t.HasSymbol x)
    (text : String) : ∃ r, t.resolveMember x text = .ok r ∧ ∀ m, r = some m → t.HasSymbol m := by
  rw [resolveMember]
  cases t.names.find? text with
  | none => exact ⟨none, rfl, by simp⟩
  | some n => exact consistent.exists_memberNamed given n

theorem given_memberOfKind (consistent : t.Consistent) (given : t.HasSymbol x) (kind : Kind)
    (text : String) :
    (do t.kindOnly kind (← t.resolveMember x text) : Answer (Option SymbolId)).Given := by
  obtain ⟨r, found, known⟩ := consistent.exists_resolveMember given text
  rw [found]
  exact given_kindOnly known kind

theorem given_resolve (consistent : t.Consistent) (given : t.HasScope s) (text : String) :
    (t.resolve s text).Given := by
  rw [resolve]
  cases t.names.find? text with
  | none => exact ⟨none, rfl⟩
  | some n => exact consistent.resolveName given n

theorem given_tryResolve (consistent : t.Consistent) (given : t.HasScope s) (text : String) :
    (t.tryResolve s text).Given := by
  refine (consistent.given_resolve given text).bind fun found _ => ?_
  cases found with
  | some x => exact ⟨.ok x, rfl⟩
  | none =>
    obtain ⟨name, called⟩ := consistent.exists_scopeName given
    exact ⟨.error (.unresolved text name), by rw [called]; rfl⟩

/-! ### Ways outwards -/

theorem given_outermost (consistent : t.Consistent) (given : t.HasScope s) :
    (t.outermost s).Given := by
  obtain ⟨path, walk⟩ := consistent.rooted given
  obtain ⟨r, last, _⟩ := walk.next_getLast
  exact ⟨r, outermost_of_walk walk last⟩

theorem exists_enclosingWhere (consistent : t.Consistent) (given : t.HasScope s)
    (p : Kind → Bool) : ∃ r, t.enclosingWhere s p = .ok r ∧ ∀ q, r = some q → t.HasScope q := by
  obtain ⟨path, known, inside⟩ := consistent.exists_enclosingPath given
  rw [enclosingWhere, known, Answer.ok_bind]
  refine (Answer.exists_findM? fun q member => ?_).imp fun r found =>
    ⟨found.1, fun q same => inside q (found.2 q same)⟩
  obtain ⟨c, read⟩ := hasScope_iff.mp (inside q member)
  rw [scopeOwner?_of_scope read, Answer.ok_bind]
  cases owned : c.owner? with
  | none => exact ⟨false, rfl⟩
  | some owner => exact (given_kind (consistent.hasSymbol_of_owned read owned)).map p

theorem given_enclosingFunction (consistent : t.Consistent) (given : t.HasScope s) :
    (t.enclosingFunction s).Given := by
  obtain ⟨r, found, known⟩ := consistent.exists_enclosingWhere given Kind.isFunctionLike
  rw [enclosingFunction, found]
  cases r with
  | none => exact ⟨none, rfl⟩
  | some body => exact given_of_hasScope (known body rfl) _

theorem given_parentScope? (consistent : t.Consistent) (given : t.HasScope s) :
    (t.parentScope? s).Given := by
  obtain ⟨c, read⟩ := hasScope_iff.mp given
  rw [parentScope?, read]
  simp only [Answer.ok_bind]
  cases owned : c.owner? with
  | none => exact ⟨c.enclosing, rfl⟩
  | some owner =>
    obtain ⟨r, above, known⟩ :=
      consistent.exists_superclass (consistent.hasSymbol_of_owned read owned)
    simp only [above, Answer.ok_bind]
    cases r with
    | none => exact ⟨c.enclosing, rfl⟩
    | some P => exact (given_of_hasSymbol (known P rfl) _).map _

/-! ### Types -/

/-- A type that is not made of itself has a text, also as a type of the table. -/
theorem given_displayType (consistent : t.Consistent) (laid : t.types.Laid) {type : TypeId}
    (ends : ¬ t.types.Endless type) : (t.displayType type).Given := by
  have written := laid.exists_write t.names ends
  obtain ⟨e, known⟩ := laid.readable type
  rw [displayType, known]
  cases e with
  | aggregate declared name =>
    simp only [Answer.ok_bind]
    split
    · rename_i below
      exact consistent.given_fullyQualifiedName below "."
    · exact written
  | _ => exact written

theorem given_displaySymbol (consistent : t.Consistent) (laid : t.types.Laid)
    (acyclic : t.types.Acyclic) (given : t.HasSymbol x) : (t.displaySymbol x).Given := by
  refine (consistent.given_scopedName given ".").bind fun text _ => ?_
  refine (given_of_hasSymbol given (·.form.declaredType?)).bind fun declared _ => ?_
  cases declared with
  | none => exact ⟨text, rfl⟩
  | some type => exact (consistent.given_displayType laid (acyclic.not_endless type)).map _

end Consistent

end Table

end Scoping
