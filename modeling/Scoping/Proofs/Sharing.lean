import Scoping.Proofs.Arrival
import Scoping.Proofs.Families

/-!
# Calls through holders

Holders of one family write into one store, and copies are taken of stores at any time. The
history of the calls tells which holders are of one family, which strings were added through
them, and what a copy was taken of. From this follows how each call would be answered if there
were a plain lexicon for each family and one for each copy.
-/

namespace Scoping

/-- What is asked of a lexicon. Nothing changes by it. -/
inductive Question
  | string (id : Nat)
  | number (s : String)
  | size
  | isEmpty
  | strings
deriving DecidableEq

/-- What a call is answered with. -/
inductive SharedReply
  | holder (h : Holder)
  | copy (place : Nat)
  | string (s : Option String)
  | number (id : Option Nat)
  | size (n : Nat)
  | isEmpty (b : Bool)
  | strings (l : List String)
deriving DecidableEq

/-- A call through a holder, or on one of the copies that were taken. -/
inductive SharedCall
  /-- Make a holder with an empty store of its own. -/
  | fresh
  /-- Make another holder of the same store. -/
  | clone (h : Holder)
  | add (h : Holder) (s : String)
  | ask (h : Holder) (q : Question)
  /-- Take a copy of what the holder sees. -/
  | copy (h : Holder)
  | addToCopy (place : Nat) (s : String)
  | askCopy (place : Nat) (q : Question)
deriving DecidableEq

/-- What a lexicon answers. -/
def Lexicon.answer (lex : Lexicon) : Question → SharedReply
  | .string id => .string (lex.get? id)
  | .number s => .number (lex.idOf? s)
  | .size => .size lex.size
  | .isEmpty => .isEmpty lex.isEmpty
  | .strings => .strings lex.toList

namespace SharedLexicons

variable {m : SharedLexicons} {g h : Holder} {lex : Lexicon}

@[simp]
theorem storeOf?_with (stores : Array Lexicon) :
    ({ m with stores } : SharedLexicons).storeOf? g = m.storeOf? g := rfl

theorem snapshot?_eq_some_iff : m.snapshot? h = some lex ↔
    ∃ store, m.storeOf? h = some store ∧ m.stores[store]? = some lex := by
  rw [snapshot?]
  exact Option.bind_eq_some_iff

theorem snapshot?_congr (same : m.storeOf? g = m.storeOf? h) : m.snapshot? g = m.snapshot? h := by
  rw [snapshot?, snapshot?, same]

theorem storeOf?_isSome_iff : (m.storeOf? h).isSome ↔ h.index < m.holders.size := by
  rw [storeOf?, isSome_getElem?]

/-- A new holder has a store of its own. -/
theorem storeOf?_fresh : m.fresh.2.storeOf? g =
    if g.index = m.holders.size then some m.stores.size else m.storeOf? g :=
  Array.getElem?_push

/-- The store of a new holder is empty, and the others see what they saw. -/
theorem snapshot?_fresh_self : m.fresh.2.snapshot? ⟨m.holders.size⟩ = some .empty :=
  snapshot?_eq_some_iff.mpr ⟨m.stores.size, Array.getElem?_push_size, Array.getElem?_push_size⟩

theorem snapshot?_fresh (sees : m.snapshot? g = some lex) :
    m.fresh.2.snapshot? g = some lex := by
  obtain ⟨store, held, there⟩ := snapshot?_eq_some_iff.mp sees
  have before := storeOf?_isSome_iff.mp (Option.isSome_of_eq_some held)
  refine snapshot?_eq_some_iff.mpr ⟨store, ?_, ?_⟩
  · rw [storeOf?_fresh, if_neg (Nat.ne_of_lt before), held]
  · have short := (Array.getElem?_eq_some_iff.mp there).1
    exact (Array.getElem?_push_lt short).trans (Array.getElem?_eq_getElem short ▸ there)

/-- A clone has the store of the holder that it was cloned from, and sees what that one sees. -/
theorem exists_clone? (held : (m.storeOf? h).isSome) :
    ∃ holders, m.clone? h = some (⟨m.holders.size⟩, { m with holders }) ∧
      holders.size = m.holders.size + 1 ∧
      (∀ g, ({ m with holders } : SharedLexicons).storeOf? g =
        if g.index = m.holders.size then m.storeOf? h else m.storeOf? g) ∧
      ∀ g, ({ m with holders } : SharedLexicons).snapshot? g =
        if g.index = m.holders.size then m.snapshot? h else m.snapshot? g := by
  obtain ⟨store, held⟩ := Option.isSome_iff_exists.mp held
  have stores : ∀ g, SharedLexicons.storeOf? ⟨m.stores, m.holders.push store⟩ g =
      if g.index = m.holders.size then m.storeOf? h else m.storeOf? g := by
    intro g
    rw [held]
    exact Array.getElem?_push
  refine ⟨m.holders.push store, ?_, Array.size_push _, stores, fun g => ?_⟩
  · rw [clone?, held]
    rfl
  · rw [snapshot?, stores]
    split <;> rfl

/-- What is added through a holder is seen by the holders of the same store, and by no other. The
holder is answered as by the lexicon it sees, and sees afterwards what this would have become. -/
theorem exists_add? (sees : m.snapshot? h = some lex) (s : String) :
    ∃ stores, m.add? h s = some ((lex.add s).1, { m with stores }) ∧
      ∀ g, ({ m with stores } : SharedLexicons).snapshot? g =
        if m.storeOf? g = m.storeOf? h then some (lex.add s).2 else m.snapshot? g := by
  obtain ⟨store, held, there⟩ := snapshot?_eq_some_iff.mp sees
  cases known : lex.idOf? s with
  | some id =>
    refine ⟨m.stores, ?_, fun g => ?_⟩
    · simp only [add?, held, there, known, Option.bind_eq_bind, Option.bind_some,
        Lexicon.add_of_known known]
    · rw [Lexicon.add_of_known known]
      split
      next same => exact (snapshot?_congr same).trans sees
      next => rfl
  | none =>
    refine ⟨m.stores.setIfInBounds store (lex.add s).2, ?_, fun g => ?_⟩
    · simp only [add?, held, there, known, Option.bind_eq_bind, Option.bind_some]
    · have short : store < m.stores.size := (Array.getElem?_eq_some_iff.mp there).1
      simp only [snapshot?, storeOf?_with, held, Option.bind_eq_bind]
      cases m.storeOf? g with
      | none => rfl
      | some k =>
        simp only [Option.bind_some, Option.some.injEq, Array.getElem?_setIfInBounds]
        split
        next same => rw [if_pos same.symm]
        next apart => rw [if_neg (Ne.symm apart)]

end SharedLexicons

namespace SharedCall

variable {calls : List SharedCall} {c : SharedCall} {h : Holder} {place : Nat}
  {origin : Option Holder}

/-! ### What the history tells -/

/-- How the holder came about that the call makes: it is new, or cloned from another one. -/
def origin? : SharedCall → Option (Option Holder)
  | fresh => some none
  | clone h => some (some h)
  | _ => none

/-- The string that the call adds, and the holder through which it comes. -/
def addition? : SharedCall → Option (Holder × String)
  | add h s => some (h, s)
  | _ => none

/-- The place of the call and the holder through which it takes a copy. -/
def copying? : SharedCall × Nat → Option (Nat × Holder)
  | (copy h, i) => some (i, h)
  | _ => none

/-- The string that the call adds to a copy, and which copy it is. -/
def copyAddition? : SharedCall → Option (Nat × String)
  | addToCopy place s => some (place, s)
  | _ => none

/-- For each holder the one that it was cloned from, if any. The first holder was there from the
start. -/
def origins (calls : List SharedCall) : List (Option Holder) := none :: calls.filterMap origin?

/-- The strings that were added, and the holders through which they came. -/
def additions (calls : List SharedCall) : List (Holder × String) := calls.filterMap addition?

/-- For each copy the place of the call that took it, and the holder through which it was taken. -/
def taken (calls : List SharedCall) : List (Nat × Holder) := calls.zipIdx.filterMap copying?

/-- The strings that were added to copies. -/
def copyAdditions (calls : List SharedCall) : List (Nat × String) :=
  calls.filterMap copyAddition?

/-- The strings that were added through the holders of the family of `h`. -/
def added (calls : List SharedCall) (h : Holder) : List String :=
  ((additions calls).filter (Holder.SameFamily (origins calls) ·.1 h)).map Prod.snd

/-- The strings of a copy: those of the store when the copy was taken, and those that were added to
the copy itself. -/
def copied (calls : List SharedCall) (place : Nat) : List String :=
  match (taken calls)[place]? with
  | some (i, h) =>
    added (calls.take i) h ++ ((copyAdditions calls).filter (·.1 = place)).map Prod.snd
  | none => []

/-- The call is on a holder or a copy that is there. -/
def Proper (calls : List SharedCall) : SharedCall → Prop
  | fresh => True
  | clone h | add h _ | ask h _ | copy h => h.index < (origins calls).length
  | addToCopy place _ | askCopy place _ => place < (taken calls).length

instance decidableProper (calls : List SharedCall) (c : SharedCall) :
    Decidable (c.Proper calls) := by
  cases c <;> unfold Proper <;> infer_instance

/-- Every call is on a holder or a copy that is there when its turn comes. -/
def AllProper (calls : List SharedCall) : Prop :=
  ∀ i, ∀ short : i < calls.length, calls[i].Proper (calls.take i)

instance (calls : List SharedCall) : Decidable (AllProper calls) :=
  inferInstanceAs (Decidable (∀ i, ∀ _ : i < calls.length, calls[i].Proper (calls.take i)))

/-- What the call is answered with, where one plain lexicon stands for each family and for each
copy. -/
def answer (calls : List SharedCall) : SharedCall → SharedReply
  | fresh | clone _ => .holder ⟨(origins calls).length⟩
  | add h s => .number ((Lexicon.ofList (added calls h)).add s).1
  | ask h q => (Lexicon.ofList (added calls h)).answer q
  | copy _ => .copy (taken calls).length
  | addToCopy place s => .number ((Lexicon.ofList (copied calls place)).add s).1
  | askCopy place q => (Lexicon.ofList (copied calls place)).answer q

theorem allProper_concat_iff : AllProper (calls ++ [c]) ↔ AllProper calls ∧ c.Proper calls := by
  have length : (calls ++ [c]).length = calls.length + 1 := List.length_append
  constructor
  · intro proper
    refine ⟨fun i short => ?_, ?_⟩
    · have here := proper i (length ▸ Nat.lt_succ_of_lt short)
      rwa [List.getElem_append_left short, List.take_append_of_le_length (Nat.le_of_lt short)]
        at here
    · have here := proper calls.length (length ▸ Nat.lt_succ_self _)
      rwa [List.getElem_concat_length rfl, List.take_left] at here
  · rintro ⟨proper, last⟩ i short
    rw [length] at short
    rcases Nat.lt_succ_iff_lt_or_eq.mp short with earlier | rfl
    · rw [List.getElem_append_left earlier, List.take_append_of_le_length (Nat.le_of_lt earlier)]
      exact proper i earlier
    · rw [List.getElem_concat_length rfl, List.take_left]
      exact last

theorem filterMap_concat {α β : Type} (f : α → Option β) (l : List α) (a : α) :
    (l ++ [a]).filterMap f = l.filterMap f ++ (f a).toList := by
  cases own : f a <;> simp [own]

theorem origins_concat : origins (calls ++ [c]) = origins calls ++ c.origin?.toList :=
  congrArg (none :: ·) (filterMap_concat ..)

theorem additions_concat : additions (calls ++ [c]) = additions calls ++ c.addition?.toList :=
  filterMap_concat ..

theorem copyAdditions_concat :
    copyAdditions (calls ++ [c]) = copyAdditions calls ++ c.copyAddition?.toList :=
  filterMap_concat ..

theorem taken_concat :
    taken (calls ++ [c]) = taken calls ++ (copying? (c, calls.length)).toList := by
  rw [taken, List.zipIdx_append, List.zipIdx_singleton, Nat.zero_add]
  exact filterMap_concat ..

/-- Nothing comes to a family by a call that makes no holder and adds nothing through one. -/
theorem added_of_idle (keeps : c.origin? = none) (silent : c.addition? = none) :
    added (calls ++ [c]) h = added calls h := by
  rw [added, origins_concat, additions_concat, keeps, silent]
  simp only [Option.toList_none, List.append_nil, added]

theorem added_add (g : Holder) (s : String) : added (calls ++ [add g s]) h =
    added calls h ++ if Holder.SameFamily (origins calls) g h then [s] else [] := by
  rw [added, origins_concat, additions_concat, List.filter_append, List.map_append]
  simp only [origin?, addition?, Option.toList_none, Option.toList_some, List.append_nil, added]
  split
  next kin => simp [kin]
  next apart => simp [apart]

/-- Where a holder is made, the families of the strings are seen anew. -/
theorem added_of_origin? (kin : Holder → Prop) [DecidablePred kin]
    (made : c.origin? = some origin) (silent : c.addition? = none)
    (family : ∀ a ∈ additions calls,
      Holder.SameFamily (origins calls ++ [origin]) a.1 h ↔ kin a.1) :
    added (calls ++ [c]) h = ((additions calls).filter (kin ·.1)).map Prod.snd := by
  rw [added, origins_concat, additions_concat, made, silent]
  simp only [Option.toList_none, Option.toList_some, List.append_nil]
  exact congrArg (List.map Prod.snd) (List.filter_congr fun a member => by simp [family a member])

theorem lt_of_mem_taken {i : Nat} (member : (i, h) ∈ taken calls) : i < calls.length := by
  obtain ⟨⟨c, j⟩, indexed, own⟩ := List.mem_filterMap.mp member
  cases c with
  | copy g =>
    cases own
    exact List.snd_lt_of_mem_zipIdx indexed
  | _ => cases own

/-- A copy that was taken before holds what it held, and what the call adds to it. -/
theorem copied_concat (there : place < (taken calls).length) : copied (calls ++ [c]) place =
    copied calls place ++ (c.copyAddition?.toList.filter (·.1 = place)).map Prod.snd := by
  obtain ⟨⟨i, h⟩, before⟩ : ∃ own, (taken calls)[place]? = some own :=
    ⟨_, List.getElem?_eq_getElem there⟩
  have early := lt_of_mem_taken (List.mem_of_getElem? before)
  have after : (taken (calls ++ [c]))[place]? = some (i, h) := by
    rw [taken_concat, List.getElem?_append_left there, before]
  simp only [copied, after, before]
  rw [List.take_append_of_le_length (Nat.le_of_lt early), copyAdditions_concat,
    List.filter_append, List.map_append, List.append_assoc]

/-- A new copy holds what its store holds. -/
theorem copied_copy (h : Holder)
    (known : ∀ a ∈ copyAdditions calls, a.1 < (taken calls).length) :
    copied (calls ++ [copy h]) (taken calls).length = added calls h := by
  have nothing : (copyAdditions calls).filter (·.1 = (taken calls).length) = [] :=
    List.filter_eq_nil_iff.mpr fun a member => by simpa using Nat.ne_of_lt (known a member)
  rw [copied, taken_concat]
  simp [copying?, copyAdditions_concat, copyAddition?, nothing]

end SharedCall

end Scoping
