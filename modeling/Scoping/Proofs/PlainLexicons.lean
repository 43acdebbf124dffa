import Scoping.Proofs.Sharing

/-!
# Plain lexicons in place of shared ones

Each holder is answered as by a plain lexicon to which the strings were added that came through
the holders of its family, in this order. A copy holds what its store held when it was taken and
what was added to it itself: neither bears on the other any more. This is kept by each call, and
so it holds of every history in which all holders and copies are there when they are used.
-/

namespace Scoping

/-- Shared lexicons, and the copies that were taken of them. -/
structure Sharing where
  shared : SharedLexicons
  copies : Array Lexicon

namespace Sharing

open SharedCall

variable {calls : List SharedCall} {c : SharedCall} {d : Sharing} {m : SharedLexicons}
  {held : Array Lexicon} {g h : Holder} {lex : Lexicon} {place : Nat}

/-- One holder, and no copies. -/
def start : Sharing := ⟨.single, #[]⟩

/-- Answer a call, unless its holder or its copy is not there. -/
def call? (d : Sharing) : SharedCall → Option (SharedReply × Sharing)
  | .fresh => some (.holder d.shared.fresh.1, { d with shared := d.shared.fresh.2 })
  | .clone h => do
    let (made, shared) ← d.shared.clone? h
    some (.holder made, { d with shared })
  | .add h s => do
    let (id, shared) ← d.shared.add? h s
    some (.number id, { d with shared })
  | .ask h q => do
    let lex ← d.shared.snapshot? h
    some (lex.answer q, d)
  | .copy h => do
    let lex ← d.shared.snapshot? h
    some (.copy d.copies.size, { d with copies := d.copies.push lex })
  | .addToCopy place s => do
    let lex ← d.copies[place]?
    let (id, lex) := lex.add s
    some (.number id, { d with copies := d.copies.setIfInBounds place lex })
  | .askCopy place q => do
    let lex ← d.copies[place]?
    some (lex.answer q, d)

/-- Answer calls one after the other. -/
def calls? (d : Sharing) : List SharedCall → Option (List SharedReply × Sharing)
  | [] => some ([], d)
  | c :: rest => do
    let (reply, d) ← d.call? c
    let (replies, d) ← d.calls? rest
    some (reply :: replies, d)

/-- Holders stand for the lexicons of their families. -/
structure Pooled (calls : List SharedCall) (m : SharedLexicons) : Prop where
  made : m.holders.size = (origins calls).length
  /-- Holders have the same store just when they are of one family. -/
  family : ∀ g h, g.index < (origins calls).length → h.index < (origins calls).length →
    (m.storeOf? g = m.storeOf? h ↔ Holder.SameFamily (origins calls) g h)
  sees : ∀ h, h.index < (origins calls).length →
    m.snapshot? h = some (.ofList (added calls h))
  known : ∀ a ∈ additions calls, a.1.index < (origins calls).length

/-- Copies stand for lexicons of their own. -/
structure Copied (calls : List SharedCall) (held : Array Lexicon) : Prop where
  size : held.size = (taken calls).length
  sees : ∀ place, place < (taken calls).length →
    held[place]? = some (.ofList (copied calls place))
  known : ∀ a ∈ copyAdditions calls, a.1 < (taken calls).length

theorem pooled_start : Pooled [] .single where
  made := rfl
  family g h there here := by
    have first : ∀ {h : Holder}, h.index < 1 → h = ⟨0⟩ := fun short =>
      congrArg Holder.mk (Nat.lt_one_iff.mp short)
    rw [first there, first here]
    exact iff_of_true rfl (.refl _)
  sees h here := by
    obtain rfl : h = ⟨0⟩ := congrArg Holder.mk (Nat.lt_one_iff.mp here)
    rfl
  known := List.forall_mem_nil _

theorem copied_start : Copied [] #[] where
  size := rfl
  sees _ there := absurd there (Nat.not_lt_zero _)
  known := List.forall_mem_nil _

/-! ### Calls through holders -/

/-- A call that makes no holder and adds nothing through one leaves the families as they are. -/
theorem Pooled.idle (pooled : Pooled calls m) (keeps : c.origin? = none)
    (silent : c.addition? = none) : Pooled (calls ++ [c]) m := by
  have same : origins (calls ++ [c]) = origins calls := by
    rw [origins_concat, keeps]
    exact List.append_nil _
  have known : additions (calls ++ [c]) = additions calls := by
    rw [additions_concat, silent]
    exact List.append_nil _
  refine ⟨same ▸ pooled.made, same ▸ pooled.family, fun h here => ?_, ?_⟩
  · rw [added_of_idle keeps silent]
    exact pooled.sees h (same ▸ here)
  · rw [known, same]
    exact pooled.known

/-- A call that makes a holder gives it the store of its family, which is a new one where the
family is new. -/
theorem Pooled.holder (pooled : Pooled calls m) {origin : Option Holder} {m' : SharedLexicons}
    {store : Option Nat} (made : c.origin? = some origin) (silent : c.addition? = none)
    (size : m'.holders.size = m.holders.size + 1)
    (stores : ∀ g, m'.storeOf? g = if g.index = m.holders.size then store else m.storeOf? g)
    (family : ∀ g, g.index < (origins calls).length → (m.storeOf? g = store ↔
      Holder.SameFamily (origins calls ++ [origin]) g ⟨(origins calls).length⟩))
    (before : ∀ g, g.index < (origins calls).length → m'.snapshot? g = m.snapshot? g)
    (last : m'.snapshot? ⟨(origins calls).length⟩ =
      some (.ofList (added (calls ++ [c]) ⟨(origins calls).length⟩))) :
    Pooled (calls ++ [c]) m' := by
  have grown : origins (calls ++ [c]) = origins calls ++ [origin] := by
    rw [origins_concat, made]
    rfl
  have length : (origins (calls ++ [c])).length = (origins calls).length + 1 := by
    rw [grown, List.length_append, List.length_singleton]
  have earlier : ∀ {g : Holder}, g.index < (origins calls).length →
      m'.storeOf? g = m.storeOf? g := by
    intro g there
    rw [stores, if_neg (pooled.made ▸ Nat.ne_of_lt there)]
  have latest : m'.storeOf? ⟨(origins calls).length⟩ = store := by
    rw [stores, if_pos pooled.made.symm]
  refine ⟨?_, fun g h there here => ?_, fun h here => ?_, fun a member => ?_⟩
  · rw [size, length, pooled.made]
  · -- the relation is symmetric, so that the second holder may be taken for the later one
    wlog order : g.index ≤ h.index generalizing g h
    · rw [eq_comm, this h g here there (Nat.le_of_not_le order)]
      exact ⟨.symm _ _, .symm _ _⟩
    rw [length] at there here
    rw [grown]
    rcases Holder.lt_succ_iff.mp here with second | rfl
    · have first := Nat.lt_of_le_of_lt order second
      rw [earlier first, earlier second, Holder.sameFamily_concat_iff first second]
      exact pooled.family g h first second
    · rw [latest]
      rcases Holder.lt_succ_iff.mp there with first | rfl
      · rw [earlier first]
        exact family g first
      · exact iff_of_true latest (.refl _)
  · rw [length] at here
    rcases Holder.lt_succ_iff.mp here with old | rfl
    · have same : added (calls ++ [c]) h = added calls h :=
        added_of_origin? (Holder.SameFamily (origins calls) · h) made silent fun a member =>
          Holder.sameFamily_concat_iff (pooled.known a member) old
      rw [same, before h old]
      exact pooled.sees h old
    · exact last
  · rw [additions_concat, silent, Option.toList_none, List.append_nil] at member
    rw [length]
    exact Nat.lt_succ_of_lt (pooled.known a member)

theorem Pooled.fresh (pooled : Pooled calls m) : Pooled (calls ++ [.fresh]) m.fresh.2 := by
  refine pooled.holder (c := .fresh) rfl rfl (Array.size_push _) (fun _ => m.storeOf?_fresh)
    (fun g there => ?_) (fun g there => ?_) ?_
  · obtain ⟨store, held, stored⟩ :=
      SharedLexicons.snapshot?_eq_some_iff.mp (pooled.sees g there)
    have short := (Array.getElem?_eq_some_iff.mp stored).1
    rw [held, Option.some.injEq]
    exact iff_of_false (Nat.ne_of_lt short) (Holder.not_sameFamily_fresh there)
  · rw [pooled.sees g there]
    exact SharedLexicons.snapshot?_fresh (pooled.sees g there)
  · have nothing : added (calls ++ [.fresh]) ⟨(origins calls).length⟩ = [] := by
      rw [added_of_origin? (fun _ => False) rfl rfl fun a member =>
        iff_of_false (Holder.not_sameFamily_fresh (pooled.known a member)) id]
      simp
    rw [nothing, ← pooled.made]
    exact SharedLexicons.snapshot?_fresh_self

theorem Pooled.clone (pooled : Pooled calls m) (there : h.index < (origins calls).length) :
    ∃ holders, m.clone? h = some (⟨(origins calls).length⟩, { m with holders }) ∧
      Pooled (calls ++ [.clone h]) { m with holders } := by
  have held : (m.storeOf? h).isSome :=
    SharedLexicons.storeOf?_isSome_iff.mpr (pooled.made ▸ there)
  obtain ⟨holders, made, size, stores, seen⟩ := SharedLexicons.exists_clone? held
  rw [pooled.made] at made
  refine ⟨holders, made, pooled.holder (c := .clone h) rfl rfl size stores (fun g here => ?_)
    (fun g here => ?_) ?_⟩
  · rw [Holder.sameFamily_clone_iff here there]
    exact pooled.family g h here there
  · rw [seen, if_neg (pooled.made ▸ Nat.ne_of_lt here)]
  · have same : added (calls ++ [.clone h]) ⟨(origins calls).length⟩ = added calls h :=
      added_of_origin? (Holder.SameFamily (origins calls) · h) rfl rfl fun a member =>
        Holder.sameFamily_clone_iff (pooled.known a member) there
    rw [seen, if_pos pooled.made.symm, same]
    exact pooled.sees h there

/-- What is added through a holder comes to the lexicon of its family. -/
theorem Pooled.add (pooled : Pooled calls m) (there : h.index < (origins calls).length)
    (s : String) : ∃ stores,
      m.add? h s = some (((Lexicon.ofList (added calls h)).add s).1, { m with stores }) ∧
      Pooled (calls ++ [.add h s]) { m with stores } := by
  obtain ⟨stores, made, seen⟩ := SharedLexicons.exists_add? (pooled.sees h there) s
  have same : origins (calls ++ [.add h s]) = origins calls :=
    origins_concat.trans (List.append_nil _)
  refine ⟨stores, made, same ▸ pooled.made, same ▸ pooled.family, fun g here => ?_,
    fun a member => ?_⟩
  · rw [same] at here
    rw [seen, added_add]
    by_cases kin : m.storeOf? g = m.storeOf? h
    · have one : some (Lexicon.ofList (added calls g)) = some (.ofList (added calls h)) := by
        rw [← pooled.sees g here, ← pooled.sees h there]
        exact SharedLexicons.snapshot?_congr kin
      rw [if_pos kin, if_pos ((pooled.family h g there here).mp kin.symm), ← Option.some.inj one,
        Lexicon.ofList_concat]
    · have apart := mt (pooled.family h g there here).mpr (kin ·.symm)
      rw [if_neg kin, if_neg apart, List.append_nil, pooled.sees g here]
  · rw [same]
    rcases List.mem_append.mp (additions_concat ▸ member) with known | this
    · exact pooled.known a known
    · cases List.mem_singleton.mp this
      exact there

/-! ### Calls on copies -/

/-- A call that takes no copy and adds to none leaves the copies as they are. -/
theorem Copied.idle (copied : Copied calls held) (keeps : copying? (c, calls.length) = none)
    (silent : c.copyAddition? = none) : Copied (calls ++ [c]) held := by
  have same : taken (calls ++ [c]) = taken calls := by
    rw [taken_concat, keeps]
    exact List.append_nil _
  refine ⟨same ▸ copied.size, fun place there => ?_, ?_⟩
  · rw [same] at there
    rw [copied_concat there, silent, copied.sees place there]
    simp
  · rw [same, copyAdditions_concat, silent, Option.toList_none, List.append_nil]
    exact copied.known

/-- A copy begins with what the store holds. -/
theorem Copied.copy (copied : Copied calls held) (h : Holder) :
    Copied (calls ++ [.copy h]) (held.push (.ofList (added calls h))) := by
  have grown : (taken (calls ++ [.copy h])).length = (taken calls).length + 1 := by
    rw [taken_concat]
    exact List.length_append
  refine ⟨?_, fun place there => ?_, fun a member => ?_⟩
  · rw [grown, Array.size_push, copied.size]
  · rw [grown] at there
    rw [Array.getElem?_push, copied.size]
    rcases Nat.lt_succ_iff_lt_or_eq.mp there with earlier | rfl
    · rw [if_neg (Nat.ne_of_lt earlier), copied_concat earlier, copied.sees place earlier]
      simp [copyAddition?]
    · rw [if_pos rfl, copied_copy h copied.known]
  · rw [copyAdditions_concat] at member
    rw [grown]
    exact Nat.lt_succ_of_lt (copied.known a (by simpa [copyAddition?] using member))

/-- What is added to a copy comes to this copy alone. -/
theorem Copied.addToCopy (copied : Copied calls held) (there : place < (taken calls).length)
    (s : String) : Copied (calls ++ [.addToCopy place s])
      (held.setIfInBounds place ((Lexicon.ofList (SharedCall.copied calls place)).add s).2) := by
  have same : taken (calls ++ [.addToCopy place s]) = taken calls :=
    taken_concat.trans (List.append_nil _)
  refine ⟨?_, fun k here => ?_, fun a member => ?_⟩
  · rw [same, Array.size_setIfInBounds, copied.size]
  · rw [same] at here
    rw [copied_concat here, Array.getElem?_setIfInBounds, copied.size]
    by_cases this : place = k
    · subst this
      rw [if_pos rfl, if_pos there, ← Lexicon.ofList_concat]
      simp [copyAddition?]
    · rw [if_neg this, copied.sees k here]
      simp [copyAddition?, this]
  · rw [same]
    rcases List.mem_append.mp (copyAdditions_concat ▸ member) with known | this
    · exact copied.known a known
    · cases List.mem_singleton.mp this
      exact there

/-! ### Histories -/

/-- A proper call is answered as by plain lexicons, and what there is afterwards still stands for
them. -/
theorem exists_call? (pooled : Pooled calls d.shared) (copied : Copied calls d.copies)
    (proper : c.Proper calls) : ∃ d', d.call? c = some (c.answer calls, d') ∧
      Pooled (calls ++ [c]) d'.shared ∧ Copied (calls ++ [c]) d'.copies := by
  cases c with
  | fresh =>
    refine ⟨{ d with shared := d.shared.fresh.2 }, ?_, pooled.fresh, copied.idle rfl rfl⟩
    rw [SharedCall.answer, ← pooled.made]
    rfl
  | clone h =>
    obtain ⟨holders, made, pooled'⟩ := pooled.clone proper
    refine ⟨⟨⟨d.shared.stores, holders⟩, d.copies⟩, ?_, pooled', copied.idle rfl rfl⟩
    rw [call?, made]
    rfl
  | add h s =>
    obtain ⟨stores, made, pooled'⟩ := pooled.add proper s
    refine ⟨⟨⟨stores, d.shared.holders⟩, d.copies⟩, ?_, pooled', copied.idle rfl rfl⟩
    rw [call?, made]
    rfl
  | ask h q =>
    refine ⟨d, ?_, pooled.idle rfl rfl, copied.idle rfl rfl⟩
    rw [call?, pooled.sees h proper]
    rfl
  | copy h =>
    refine ⟨⟨d.shared, d.copies.push (.ofList (added calls h))⟩, ?_, pooled.idle rfl rfl,
      copied.copy h⟩
    rw [call?, pooled.sees h proper, copied.size]
    rfl
  | addToCopy place s =>
    refine ⟨⟨d.shared, d.copies.setIfInBounds place
      ((Lexicon.ofList (SharedCall.copied calls place)).add s).2⟩, ?_, pooled.idle rfl rfl,
      copied.addToCopy proper s⟩
    rw [call?, copied.sees place proper]
    rfl
  | askCopy place q =>
    refine ⟨d, ?_, pooled.idle rfl rfl, copied.idle rfl rfl⟩
    rw [call?, copied.sees place proper]
    rfl

theorem calls?_concat {d' d'' : Sharing} {replies : List SharedReply} {reply : SharedReply}
    (ran : d.calls? calls = some (replies, d')) (next : d'.call? c = some (reply, d'')) :
    d.calls? (calls ++ [c]) = some (replies ++ [reply], d'') := by
  induction calls generalizing d replies with
  | nil =>
    cases ran
    rw [List.nil_append, calls?, next]
    rfl
  | cons first calls ih =>
    obtain ⟨⟨reply', between⟩, called, rest⟩ := Option.bind_eq_some_iff.mp ran
    obtain ⟨⟨replies', last⟩, ran', same⟩ := Option.bind_eq_some_iff.mp rest
    cases same
    rw [List.cons_append, calls?, called]
    simp only [Option.bind_eq_bind, Option.bind_some, ih ran', List.cons_append]

/-- Proper calls are all answered as by plain lexicons. -/
theorem exists_calls? (proper : AllProper calls) : ∃ replies d,
    start.calls? calls = some (replies, d) ∧ replies.length = calls.length ∧
    (∀ i (c : SharedCall), calls[i]? = some c → replies[i]? = some (c.answer (calls.take i))) ∧
    Pooled calls d.shared ∧ Copied calls d.copies := by
  induction calls using List.reverseRecOn with
  | nil => exact ⟨[], start, rfl, rfl, fun _ _ => nofun, pooled_start, copied_start⟩
  | append_singleton calls c ih =>
    obtain ⟨before, last⟩ := allProper_concat_iff.mp proper
    obtain ⟨replies, d, ran, length, answers, pooled, copied⟩ := ih before
    obtain ⟨d', called, pooled', copied'⟩ := exists_call? pooled copied last
    refine ⟨_, d', calls?_concat ran called, ?_, fun i c' there => ?_, pooled', copied'⟩
    · rw [List.length_append, List.length_append, length]
      rfl
    · rcases Nat.lt_or_ge i calls.length with earlier | behind
      · rw [List.getElem?_append_left earlier] at there
        rw [List.getElem?_append_left (length ▸ earlier),
          List.take_append_of_le_length (Nat.le_of_lt earlier)]
        exact answers i c' there
      · have short := (List.getElem?_eq_some_iff.mp there).1
        rw [List.length_append, List.length_singleton] at short
        obtain rfl : i = calls.length := Nat.le_antisymm (Nat.le_of_lt_succ short) behind
        rw [List.getElem?_concat_length] at there
        cases there
        rw [← length, List.getElem?_concat_length, length, List.take_left]

/-- Holders that write into one store are answered as by one plain lexicon, to which just those
strings were added that came through the holders of the family, in this order. Adding looks the
string up first and does just what adding to a plain lexicon does. A copy is what the store was
when the copy was taken: what is added through holders later does not come to it, and what is
added to it comes to no holder. -/
theorem plain_lexicons :
    (∀ calls, AllProper calls → ∃ replies d, start.calls? calls = some (replies, d) ∧
      replies.length = calls.length ∧
      (∀ i (c : SharedCall), calls[i]? = some c →
        replies[i]? = some (c.answer (calls.take i))) ∧
      (∀ h : Holder, h.index < (origins calls).length →
        d.shared.snapshot? h = some (.ofList (added calls h))) ∧
      ∀ place, place < (taken calls).length →
        d.copies[place]? = some (.ofList (SharedCall.copied calls place))) ∧
    ∀ (m : SharedLexicons) h lex s, m.snapshot? h = some lex →
      ∃ m', m.add? h s = some ((lex.add s).1, m') ∧ ∀ g, m'.snapshot? g =
        if m.storeOf? g = m.storeOf? h then some (lex.add s).2 else m.snapshot? g := by
  refine ⟨fun calls proper => ?_, fun m h lex s sees => ?_⟩
  · obtain ⟨replies, d, ran, length, answers, pooled, copied⟩ := exists_calls? proper
    exact ⟨replies, d, ran, length, answers, pooled.sees, copied.sees⟩
  · obtain ⟨stores, added, seen⟩ := SharedLexicons.exists_add? sees s
    exact ⟨_, added, seen⟩

/-- Calls through four holders, of which one is of a family of its own, with a copy that is taken
in between. -/
def interleaved : List SharedCall := [
  .add ⟨0⟩ "a", .clone ⟨0⟩, .fresh, .add ⟨1⟩ "b", .add ⟨2⟩ "c", .copy ⟨0⟩, .add ⟨0⟩ "c",
  .addToCopy 0 "d", .clone ⟨1⟩, .add ⟨3⟩ "a", .ask ⟨1⟩ .strings, .askCopy 0 .strings]

theorem plain_lexicons_interleaved : AllProper interleaved ∧
    (∃ replies d, start.calls? interleaved = some (replies, d) ∧
      replies[9]? = some (.number (some 0)) ∧
      replies[10]? = some (.strings ["a", "b", "c"]) ∧
      replies[11]? = some (.strings ["a", "b", "d"]) ∧
      d.shared.snapshot? ⟨2⟩ = some (.ofList ["c"]) ∧
      d.copies[0]? = some (.ofList ["a", "b", "d"])) ∧
    SharedLexicons.single.snapshot? ⟨0⟩ = some .empty ∧
    ∃ m, SharedLexicons.single.add? ⟨0⟩ "a" = some (0, m) ∧
      m.snapshot? ⟨0⟩ = some (Lexicon.empty.add "a").2 := by
  have proper : AllProper interleaved := by decide +kernel
  obtain ⟨replies, d, ran, _, answers, sees, copied⟩ := plain_lexicons.1 interleaved proper
  obtain ⟨m, added, seen⟩ := plain_lexicons.2 .single ⟨0⟩ .empty "a" rfl
  refine ⟨proper, ⟨replies, d, ran, ?_, ?_, ?_, ?_, ?_⟩, rfl, m, added, seen ⟨0⟩⟩
  · exact (answers 9 _ rfl).trans (congrArg some (by decide +kernel))
  · exact (answers 10 _ rfl).trans (congrArg some (by decide +kernel))
  · exact (answers 11 _ rfl).trans (congrArg some (by decide +kernel))
  · exact (sees ⟨2⟩ (by decide)).trans (congrArg (some <| Lexicon.ofList ·) (by decide +kernel))
  · exact (copied 0 (by decide)).trans (congrArg (some <| Lexicon.ofList ·) (by decide +kernel))

end Sharing

end Scoping
