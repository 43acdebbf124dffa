import Scoping.Proofs.Questions

/-!
# Qualified names

A qualified name joins the names on the way to a symbol. It can be taken apart again when no
name holds a character of the separator, and then it tells the way: in one scope no two
bodies have a name in common, and of the other scopes only the global one stands beside
bodies. Blocks are all called the same, so that nothing inside of them is told apart.
-/

namespace Scoping

/-! ### Joined texts -/

/-- No character of the separator occurs in the text. -/
def Avoids (separator text : String) : Prop := ∀ c ∈ separator.toList, c ∉ text.toList

variable {separator v w p q : String}

/-- The first separator ends the first text. -/
theorem Avoids.append_inj (nonempty : separator ≠ "") (hv : Avoids separator v)
    (hw : Avoids separator w) (same : v ++ separator ++ p = w ++ separator ++ q) :
    v = w ∧ p = q := by
  obtain ⟨d, rest, split⟩ : ∃ d rest, separator.toList = d :: rest :=
    List.exists_cons_of_ne_nil fun none => nonempty (String.toList_inj.mp none)
  have first : d ∈ separator.toList := split ▸ List.mem_cons_self
  have before : ∀ {u : String} (more : List Char), Avoids separator u →
      (u.toList ++ (d :: rest) ++ more).takeWhile (· ≠ d) = u.toList := by
    intro u more avoids
    have other : ∀ c ∈ u.toList, decide (c ≠ d) = true := fun c member =>
      decide_eq_true fun here => avoids d first (here ▸ member)
    rw [List.append_assoc, List.takeWhile_append_of_pos other]
    simp
  have chars := congrArg String.toList same
  simp only [String.toList_append, split] at chars
  have heads : v.toList = w.toList := by rw [← before p.toList hv, chars, before q.toList hw]
  rw [heads] at chars
  exact ⟨String.toList_inj.mp heads, String.toList_inj.mp (List.append_cancel_left chars)⟩

theorem Avoids.ne_append (nonempty : separator ≠ "") (avoids : Avoids separator v) :
    v ≠ w ++ separator ++ p := by
  rintro rfl
  obtain ⟨d, first⟩ := List.exists_mem_of_ne_nil separator.toList
    fun none => nonempty (String.toList_inj.mp none)
  exact avoids d first (by simp [first])

/-- Joined texts can be taken apart. -/
theorem intercalate_inj (nonempty : separator ≠ "") {l m : List String}
    (hl : ∀ v ∈ l, Avoids separator v) (hm : ∀ v ∈ m, Avoids separator v) (filled : l ≠ [])
    (filled' : m ≠ []) (same : separator.intercalate l = separator.intercalate m) : l = m := by
  induction l generalizing m with
  | nil => exact absurd rfl filled
  | cons v l ih =>
    obtain ⟨w, m, rfl⟩ := List.exists_cons_of_ne_nil filled'
    have avoids := hl v List.mem_cons_self
    have avoids' := hm w List.mem_cons_self
    rcases l with _ | ⟨v', l⟩ <;> rcases m with _ | ⟨w', m⟩
    · rw [String.intercalate_singleton, String.intercalate_singleton] at same
      rw [same]
    · rw [String.intercalate_singleton, String.intercalate_cons_cons] at same
      exact absurd same (avoids.ne_append nonempty)
    · rw [String.intercalate_singleton, String.intercalate_cons_cons] at same
      exact absurd same.symm (avoids'.ne_append nonempty)
    · rw [String.intercalate_cons_cons, String.intercalate_cons_cons] at same
      obtain ⟨rfl, rest⟩ := avoids.append_inj nonempty avoids' same
      rw [ih (fun u member => hl u (List.mem_cons_of_mem v member))
        (fun u member => hm u (List.mem_cons_of_mem v member)) (List.cons_ne_nil _ _)
        (List.cons_ne_nil _ _) rest]

namespace Table

variable {t u : Table} {r s o : ScopeId} {x y : SymbolId} {a : Symbol} {c d : Scope}
  {kinds : Kind → Prop} {text : String}

/-! ### The parts that scopes play -/

/-- A scope is one of the two that a table begins with, of which the one lies in the other, or
it is a block or a body. -/
inductive Role (s : ScopeId) (c : Scope) : Prop
  | predefined : s = .predefined → c.kind = .predefined → Role s c
  | global : s = .global → c.kind = .global → c.enclosing = some .predefined → Role s c
  | block : c.kind = .block → Role s c
  | body (x : SymbolId) : c.kind = .body x → Role s c

/-- Every scope plays one of these parts. -/
def Roles (t : Table) : Prop := ∀ s c, t.scope s = .ok c → Role s c

theorem Role.of_eq (role : Role s c) (kind : d.kind = c.kind)
    (inside : c.owner? = none → d.enclosing = c.enclosing) : Role s d := by
  cases role with
  | predefined here known => exact .predefined here (kind.trans known)
  | global here known outer =>
    have free : c.owner? = none := by rw [Scope.owner?, known]; rfl
    exact .global here (kind.trans known) ((inside free).trans outer)
  | block known => exact .block (kind.trans known)
  | body x known => exact .body x (kind.trans known)

theorem roles_new (config : Config) : (Table.new config).Roles := by
  intro s c read
  rcases scope_new read with ⟨rfl, rfl⟩ | ⟨rfl, rfl⟩
  · exact .predefined rfl rfl
  · exact .global rfl rfl rfl

theorem Roles.sameShape (roles : t.Roles) (same : SameShape t u) : u.Roles := by
  intro s c read
  obtain ⟨d, read', shape⟩ := same.symm.scope read
  rw [Scope.shape_eq_iff] at shape
  exact (roles s d read').of_eq shape.1.symm fun _ => shape.2.1.symm

theorem Roles.declare {spec : Spec} (roles : t.Roles)
    (declared : t.declare text spec = .ok (x, u)) : u.Roles := by
  obtain ⟨_, _, name, form, _, fresh⟩ := declare_eq_ok declared
  intro s c read
  rcases fresh.scope_iff.mp read with old | ⟨_, rfl⟩
  · exact roles s c old
  · exact .body t.nextSymbol rfl

theorem Roles.openScope (roles : t.Roles) (s : ScopeId) : (t.openScope s).2.Roles := by
  intro r c read
  rcases (scope_push_iff rfl).mp read with old | ⟨_, rfl⟩
  · exact roles r c old
  · exact .block rfl

theorem Roles.placed (roles : t.Roles) (consistent : t.Consistent) (admits : Admits t s x a c) :
    (t.placed s x a c).Roles := by
  intro r e read
  obtain ⟨d, read₀, rfl⟩ := of_scope_placed read
  exact (roles r d read₀).of_eq kind_placedScope (consistent.enclosing_of_free admits read₀)

theorem Roles.change (roles : t.Roles) (consistent : t.Consistent) (change : Change kinds t u) :
    u.Roles := by
  refine change.keeps_shape roles (fun same roles => roles.sameShape same) ?_ ?_ ?_
  · exact roles.declare
  · exact fun _ => roles.openScope _
  · exact roles.placed consistent

theorem Reachable.roles (reachable : t.Reachable) : t.Roles := by
  obtain ⟨config, steps⟩ := reachable
  have both : t.Consistent ∧ t.Roles :=
    (changes_of_steps steps).keeps_of_consistent (consistent_new config) (roles_new config)
      fun _ _ consistent roles change => roles.change consistent change
  exact both.2

/-! ### Scopes told by their names -/

/-- The name of a scope that was given out. -/
def scopeText (t : Table) (s : ScopeId) : String := (t.scopeName s).toOption.getD ""

theorem scopeText_of_scopeName (called : t.scopeName s = .ok text) : t.scopeText s = text := by
  rw [scopeText, called]
  rfl

theorem Consistent.scopeName_eq (consistent : t.Consistent) (given : t.HasScope s) :
    t.scopeName s = .ok (t.scopeText s) := by
  obtain ⟨text, called⟩ := consistent.exists_scopeName given
  rw [scopeText_of_scopeName called, called]

/-- What the predefined scope has under the name of the global one has no body. -/
def Unshadowed (t : Table) : Prop := ∀ x, t.owningScope? x = .ok (some .predefined) →
  t.symbolName x = .ok "global" → t.body? x = .ok none

/-- A body inside a scope is called as its owner, which the scope lists. -/
theorem Consistent.lists_of_body (consistent : t.Consistent) (read : t.scope s = .ok c)
    (kind : c.kind = .body x) (inside : c.enclosing = some o) :
    t.Lists o (t.scopeText s) x ∧ t.body? x = .ok (some s) := by
  have owner : c.owner? = some x := by rw [Scope.owner?, kind]; rfl
  obtain ⟨a, symbol, body⟩ := consistent.owner read owner
  obtain ⟨c', read', _, home⟩ := consistent.body symbol body
  cases Except.ok.inj (read.symm.trans read')
  obtain ⟨d, around, listed⟩ := consistent.home symbol (home.symm.trans inside)
  have called : t.scopeName s = t.symbolName x := by
    rw [scopeName, scopeKind, read]
    simp only [Answer.ok_bind, Answer.pure_eq_ok, kind]
  refine ⟨⟨_, symbolsOf_eq_ok_iff.mpr ⟨d, around, rfl⟩, Array.mem_toList_iff.mpr listed, ?_⟩,
    body?_eq_ok_iff.mpr ⟨a, symbol, body⟩⟩
  rw [← called, consistent.scopeName_eq (hasScope_iff.mpr ⟨c, read⟩)]

theorem Unshadowed.not_body (unshadowed : t.Unshadowed) (consistent : t.Consistent)
    (lists : t.Lists .predefined "global" x) : t.body? x ≠ .ok (some s) := by
  intro body
  obtain ⟨l, listed, member, called⟩ := lists
  have none := unshadowed x ((consistent.mem_symbolsOf_iff listed).mp member) called
  cases body.symm.trans none

/-- What lies directly inside a scope is the global scope, a block, or the body of a symbol
that the scope lists. -/
theorem Reachable.global_or_body (reachable : t.Reachable)
    (inside : t.enclosing? s = .ok (some o)) (bound : t.scopeKind s ≠ .ok .block) :
    (s = .global ∧ o = .predefined ∧ t.scopeText s = "global") ∨
      ∃ x, t.Lists o (t.scopeText s) x ∧ t.body? x = .ok (some s) := by
  obtain ⟨c, read, around⟩ := enclosing?_eq_ok_iff.mp inside
  have kind : t.scopeKind s = .ok c.kind := by
    rw [scopeKind, read]
    rfl
  cases reachable.roles s c read with
  | predefined first _ =>
    subst first
    obtain ⟨root, top, _, outermost⟩ := reachable.forest.root
    cases Except.ok.inj (read.symm.trans top)
    cases outermost.symm.trans around
  | global first known outer =>
    refine .inl ⟨first, Option.some.inj (around.symm.trans outer), scopeText_of_scopeName ?_⟩
    rw [scopeName, kind, known]
    rfl
  | block known => exact absurd (known ▸ kind) bound
  | body x known => exact .inr ⟨x, reachable.consistent.lists_of_body read known around⟩

/-- Of the scopes directly inside one, no two that are not blocks have the same name. -/
theorem Reachable.eq_of_scopeText (reachable : t.Reachable) (unshadowed : t.Unshadowed)
    (here : t.enclosing? r = .ok (some o)) (there : t.enclosing? s = .ok (some o))
    (bound : t.scopeKind r ≠ .ok .block) (bound' : t.scopeKind s ≠ .ok .block)
    (same : t.scopeText r = t.scopeText s) : r = s := by
  have consistent := reachable.consistent
  rcases reachable.global_or_body here bound with ⟨rfl, rfl, called⟩ | ⟨x, lists, body⟩ <;>
    rcases reachable.global_or_body there bound' with ⟨rfl, outer, called'⟩ | ⟨y, lists', body'⟩
  · rfl
  · rw [← same, called] at lists'
    exact absurd body' (unshadowed.not_body consistent lists')
  · subst outer
    rw [same, called'] at lists
    exact absurd body (unshadowed.not_body consistent lists)
  · rw [same] at lists
    cases consistent.lists_unique reachable.named lists lists'
    exact Option.some.inj (Except.ok.inj (body.symm.trans body'))

/-- The way outwards ends at the predefined scope, and no block is met. -/
def Traceable (t : Table) (s : ScopeId) : Prop :=
  ∃ path, t.enclosingPath s = .ok path ∧ path.getLast? = some .predefined ∧
    ∀ q ∈ path, t.scopeKind q ≠ .ok .block

/-- The names on the way outwards tell the scope. By induction on the way, from its end. -/
theorem Reachable.eq_of_scopeTexts (reachable : t.Reachable) (unshadowed : t.Unshadowed)
    {l m : List ScopeId} (walk : Walk t.enclosing? r l) (walk' : Walk t.enclosing? s m)
    (last : l.getLast? = some .predefined) (last' : m.getLast? = some .predefined)
    (bound : ∀ q ∈ l, t.scopeKind q ≠ .ok .block) (bound' : ∀ q ∈ m, t.scopeKind q ≠ .ok .block)
    (same : l.map t.scopeText = m.map t.scopeText) : r = s := by
  have length := congrArg List.length same
  rw [List.length_map, List.length_map] at length
  induction walk generalizing s m with
  | stop _ =>
    cases walk' with
    | stop _ => exact (Option.some.inj last).trans (Option.some.inj last').symm
    | step _ further =>
      have longer := further.length_pos
      rw [List.length_singleton, List.length_cons] at length
      omega
  | @step r p l goes further ih =>
    cases walk' with
    | stop _ =>
      have longer := further.length_pos
      rw [List.length_singleton, List.length_cons] at length
      omega
    | @step _ q m goes' further' =>
      rw [List.map_cons, List.map_cons, List.cons.injEq] at same
      obtain ⟨rest, rfl⟩ := further.eq_cons
      obtain ⟨rest', rfl⟩ := further'.eq_cons
      cases ih further' (by simpa using last) (by simpa using last')
        (fun q member => bound q (List.mem_cons_of_mem _ member))
        (fun q member => bound' q (List.mem_cons_of_mem _ member)) same.2 (by simpa using length)
      exact reachable.eq_of_scopeText unshadowed goes goes' (bound r List.mem_cons_self)
        (bound' s List.mem_cons_self) same.1

/-! ### Symbols told by their names -/

/-- A qualified name joins the names on the way, outermost first, and that of the symbol. -/
theorem Consistent.fullyQualifiedName_eq (consistent : t.Consistent) {path : List ScopeId}
    (home : t.owningScope? x = .ok (some s)) (walk : Walk t.enclosing? s path)
    (called : t.symbolName x = .ok text) (separator : String) :
    t.fullyQualifiedName x separator =
      .ok (separator.intercalate ((path.map t.scopeText).reverse ++ [text])) := by
  have names : path.reverse.mapM t.scopeName = .ok (path.reverse.map t.scopeText) :=
    Answer.mapM_eq_ok fun q member =>
      consistent.scopeName_eq (hasScope_of_mem_walk walk (List.mem_reverse.mp member))
  have filled : (path.map t.scopeText).reverse ≠ [] := by
    obtain ⟨rest, rfl⟩ := walk.eq_cons
    simp
  rw [fullyQualifiedName, home, String.intercalate_append_of_ne_nil filled (List.cons_ne_nil _ _),
    String.intercalate_singleton, ← List.map_reverse]
  simp only [Answer.ok_bind, qualifier, enclosingPath_eq_ok_iff.mpr walk, names, called]
  rfl

/-- A symbol that is defined is listed by its scope under its name. -/
theorem Reachable.exists_lists (reachable : t.Reachable)
    (home : t.owningScope? x = .ok (some s)) : ∃ text, t.Lists s text x := by
  obtain ⟨a, symbol, placed⟩ := owningScope?_eq_ok_iff.mp home
  obtain ⟨c, read, listed⟩ := reachable.consistent.home symbol placed
  obtain ⟨text, called⟩ := reachable.named.exists_symbolName (hasSymbol_iff.mpr ⟨a, symbol⟩)
  exact ⟨text, _, symbolsOf_eq_ok_iff.mpr ⟨c, read, rfl⟩, Array.mem_toList_iff.mpr listed, called⟩

/-- The separator is not empty, and none of its characters occurs in a name of the table. -/
structure Separates (t : Table) (separator : String) : Prop where
  nonempty : separator ≠ ""
  symbols : ∀ x text, t.symbolName x = .ok text → Avoids separator text
  scopes : ∀ s text, t.scopeName s = .ok text → Avoids separator text

/-- None of the names that a qualified name joins holds a character of the separator. -/
theorem Separates.avoids {separator : String} (separates : t.Separates separator)
    (consistent : t.Consistent) {path : List ScopeId} (walk : Walk t.enclosing? s path)
    (called : t.symbolName x = .ok text) :
    ∀ v ∈ (path.map t.scopeText).reverse ++ [text], Avoids separator v := by
  intro v member
  rcases List.mem_append.mp member with scope | last
  · obtain ⟨q, inside, rfl⟩ := List.mem_map.mp (List.mem_reverse.mp scope)
    exact separates.scopes q _ (consistent.scopeName_eq (hasScope_of_mem_walk walk inside))
  · rw [List.mem_singleton.mp last]
    exact separates.symbols x text called

/-- It is enough to look through the names of all symbols and all scopes. -/
theorem separates_of_names {separator : String} {symbols scopes : List String}
    (nonempty : separator ≠ "") (listed : t.everySymbol.mapM t.symbolName = .ok symbols)
    (listed' : t.allScopes.mapM t.scopeName = .ok scopes)
    (avoids : ∀ text ∈ symbols ++ scopes, Avoids separator text) : t.Separates separator := by
  refine ⟨nonempty, fun x text called => ?_, fun s text called => ?_⟩
  · obtain ⟨_, named, _⟩ := Answer.bind_eq_ok_iff.mp called
    obtain ⟨a, symbol, _⟩ := Answer.bind_eq_ok_iff.mp named
    have known := mem_everySymbol.mpr (hasSymbol_iff.mpr ⟨a, symbol⟩)
    exact avoids text (List.mem_append_left _ (Answer.mem_of_mapM listed known called))
  · obtain ⟨_, kind, _⟩ := Answer.bind_eq_ok_iff.mp called
    obtain ⟨c, read, _⟩ := Answer.bind_eq_ok_iff.mp kind
    have given : s.index < t.scopeCount := hasScope_iff.mpr ⟨c, read⟩
    have known : s ∈ t.allScopes := List.mem_map.mpr ⟨s.index, List.mem_range.mpr given, rfl⟩
    exact avoids text (List.mem_append_right _ (Answer.mem_of_mapM listed' known called))

/-- Under a separator that occurs in no name, symbols that are defined in traceable scopes have
the same qualified name only if they are the same. -/
theorem Reachable.fullyQualifiedName_inj (reachable : t.Reachable) (unshadowed : t.Unshadowed)
    {separator : String} (separates : t.Separates separator)
    (home : t.owningScope? x = .ok (some r)) (home' : t.owningScope? y = .ok (some s))
    (traceable : t.Traceable r) (traceable' : t.Traceable s) :
    ∃ p q, t.fullyQualifiedName x separator = .ok p ∧ t.fullyQualifiedName y separator = .ok q ∧
      (p = q ↔ x = y) := by
  have consistent := reachable.consistent
  obtain ⟨text, lists⟩ := reachable.exists_lists home
  obtain ⟨text', lists'⟩ := reachable.exists_lists home'
  obtain ⟨_, _, _, called⟩ := id lists
  obtain ⟨_, _, _, called'⟩ := id lists'
  obtain ⟨l, path, last, bound⟩ := traceable
  obtain ⟨m, path', last', bound'⟩ := traceable'
  have walk := enclosingPath_eq_ok_iff.mp path
  have walk' := enclosingPath_eq_ok_iff.mp path'
  refine ⟨_, _, consistent.fullyQualifiedName_eq home walk called separator,
    consistent.fullyQualifiedName_eq home' walk' called' separator, ?_, ?_⟩
  · intro same
    have names := intercalate_inj separates.nonempty
      (separates.avoids consistent walk called) (separates.avoids consistent walk' called')
      (by simp) (by simp) same
    obtain ⟨scopes, texts⟩ := List.append_inj' names rfl
    cases reachable.eq_of_scopeTexts unshadowed walk walk' last last' bound bound'
      (List.reverse_inj.mp scopes)
    cases texts
    exact consistent.lists_unique reachable.named lists lists'
  · rintro rfl
    cases Except.ok.inj (home.symm.trans home')
    cases Except.ok.inj (path.symm.trans path')
    cases Except.ok.inj (called.symm.trans called')
    rfl

/-- A struct in a struct of the global scope, and a struct called as that scope in a struct
beside it, all with members that share their names. -/
def likeNamed : Run where
  config := {}
  operations := [
    .declare "a" .structType, .define .global ⟨0⟩, .declare "a" .structType, .define ⟨2⟩ ⟨1⟩,
    .declare "a" (.field none), .define ⟨3⟩ ⟨2⟩,
    .declare "a" .structType, .define .predefined ⟨3⟩, .declare "global" .structType,
    .define ⟨4⟩ ⟨4⟩, .declare "a" (.field none), .define ⟨5⟩ ⟨5⟩]
  accepted := by decide +kernel

theorem likeNamed_fullyQualifiedName :
    likeNamed.final.Reachable ∧ likeNamed.final.Unshadowed ∧ likeNamed.final.Separates "::" ∧
    likeNamed.final.owningScope? ⟨2⟩ = .ok (some ⟨3⟩) ∧
    likeNamed.final.owningScope? ⟨5⟩ = .ok (some ⟨5⟩) ∧
    likeNamed.final.Traceable ⟨3⟩ ∧ likeNamed.final.Traceable ⟨5⟩ ∧
    likeNamed.final.fullyQualifiedName ⟨2⟩ "::" = .ok "predefined::global::a::a::a" ∧
    likeNamed.final.fullyQualifiedName ⟨5⟩ "::" = .ok "predefined::a::global::a" ∧
    ("predefined::global::a::a::a" = "predefined::a::global::a" ↔ (⟨2⟩ : SymbolId) = ⟨5⟩) := by
  have reachable := likeNamed.reachable likeNamed.operations.length
  have listed : likeNamed.final.symbolsOf .predefined = .ok [⟨3⟩] := by decide +kernel
  have unshadowed : likeNamed.final.Unshadowed := by
    intro x home called
    have member := (reachable.consistent.mem_symbolsOf_iff listed).mpr home
    cases List.mem_singleton.mp member
    have other : likeNamed.final.symbolName ⟨3⟩ ≠ .ok "global" := by decide +kernel
    exact absurd called other
  have symbols : likeNamed.final.everySymbol.mapM likeNamed.final.symbolName =
      .ok ["a", "a", "a", "a", "global", "a"] := by decide +kernel
  have scopes : likeNamed.final.allScopes.mapM likeNamed.final.scopeName =
      .ok ["predefined", "global", "a", "a", "a", "global"] := by decide +kernel
  have separates : likeNamed.final.Separates "::" :=
    separates_of_names (by decide) symbols scopes (by simp [Avoids])
  have home : likeNamed.final.owningScope? ⟨2⟩ = .ok (some ⟨3⟩) := by decide +kernel
  have home' : likeNamed.final.owningScope? ⟨5⟩ = .ok (some ⟨5⟩) := by decide +kernel
  have traceable : likeNamed.final.Traceable ⟨3⟩ :=
    ⟨[⟨3⟩, ⟨2⟩, .global, .predefined], by decide +kernel, rfl, by decide +kernel⟩
  have traceable' : likeNamed.final.Traceable ⟨5⟩ :=
    ⟨[⟨5⟩, ⟨4⟩, .predefined], by decide +kernel, rfl, by decide +kernel⟩
  have known : likeNamed.final.fullyQualifiedName ⟨2⟩ "::" =
      .ok "predefined::global::a::a::a" := by decide +kernel
  have known' : likeNamed.final.fullyQualifiedName ⟨5⟩ "::" =
      .ok "predefined::a::global::a" := by decide +kernel
  obtain ⟨p, q, first, second, same⟩ :=
    Reachable.fullyQualifiedName_inj reachable unshadowed separates home home' traceable traceable'
  cases Except.ok.inj (first.symm.trans known)
  cases Except.ok.inj (second.symm.trans known')
  exact ⟨reachable, unshadowed, separates, home, home', traceable, traceable', known, known', same⟩

end Table

end Scoping
