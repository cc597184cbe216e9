import DistSystem.Proofs.RaftProgress
import Mathlib.Order.Lattice.Nat

/-!
# Backing up to where the logs part

A rejection is to say where the run of the conflicting term starts, and the leader to go back to its
own last entry of that term, or to there. The start is not sent, and what the leader finds it does
not use: it goes back to `NextIndex`, which is right by chance only (`backup_iff`). Going back there
is enough for the log to be repaired: after two rounds at most the request is from what the follower
has committed, where the logs agree.
-/

namespace DistSystem

variable {n : ℕ} {C : Type}

/-! ## What a rejection says -/

/-- The entries of one term that end at `i` start at `j`. -/
def RunStart (l : List (Log C)) (i j : ℕ) : Prop :=
  IsLeast {j | j ≤ i ∧ ∀ k, j ≤ k → k ≤ i → l[k]?.map Log.term = l[i]?.map Log.term} j

/-- The places between the sentinel and `prev` of entries of term `T`. -/
def PlacesOf (l : List (Log C)) (prev : ℕ) (T : ℤ) : Set ℕ :=
  {i | 1 ≤ i ∧ i < prev ∧ ∃ e, l[i]? = some e ∧ (e.term : ℤ) = T}

namespace Raft

variable {r : Raft n C} {args : AppendEntiesArgs n C} {reply : AppendEntiesReply}

/-- The reply has the term of the entry that does not match, and where its run starts. -/
def TellsConflict (r : Raft n C) (args : AppendEntiesArgs n C) (reply : AppendEntiesReply) : Prop :=
  ∃ e j, r.log[args.prevLogIndex]? = some e ∧ RunStart r.log args.prevLogIndex j ∧
    reply.conflictTerm = e.term ∧ reply.conflictIndex = j

/-- The leader goes back to its last entry of the conflicting term, or to where the follower's
first is. -/
def BacksUp (r : Raft n C) (src : Fin n) (args : AppendEntiesArgs n C)
    (reply : AppendEntiesReply) : Prop :=
  ∃ r', r.stepLeader (.msgAppResp src r.me args reply) = .ok (r', []) ∧
    (∀ i, IsGreatest (PlacesOf r.log args.prevLogIndex reply.conflictTerm) i →
      r'.nextIndex src = i) ∧
    (PlacesOf r.log args.prevLogIndex reply.conflictTerm = ∅ →
      (r'.nextIndex src : ℤ) = reply.conflictIndex)

theorem appendMatched_success {x : Raft n C × AppendEntiesReply}
    (h : r.appendMatched args = .ok x) : x.2.success = true := by
  unfold appendMatched at h
  simp only [bind_eq_ok] at h
  obtain ⟨ci, -, r₁, -, -, -, r₂, -, h⟩ := h
  cases h
  rfl

/-- Only a request is rejected whose previous entry is past what is committed and not here. -/
theorem handleAppendEntries_rejected (h : LogWf r.log) (hcom : r.commitIndex < r.log.length)
    {r' : Raft n C} (heq : r.handleAppendEntries args = .ok (r', reply))
    (hs : reply.success = false) : reply = r.rejection args := by
  by_cases hun : args.prevLogIndex < r.commitIndex
  · rw [handleAppendEntries_unordered h hcom hun] at heq
    cases heq
    cases hs
  by_cases hp : r.log[args.prevLogIndex]?.map Log.term = some args.prevLogTerm
  · rw [handleAppendEntries_ordered h hun, if_pos hp] at heq
    obtain ⟨x, hx, heq⟩ := bind_eq_ok.1 heq
    split_ifs at heq
    obtain rfl := (Prod.ext_iff.1 (checkNextIndex_eq heq)).2
    rw [appendMatched_success hx] at hs
    cases hs
  · rw [handleAppendEntries_mismatched h hcom hun hp] at heq
    cases heq
    rfl

theorem tellsConflict_iff {e : Log C} (he : r.log[args.prevLogIndex]? = some e) :
    r.TellsConflict args (r.rejection args) ↔
      ∀ k ≤ args.prevLogIndex, r.log[k]?.map Log.term = some e.term := by
  have hlt := (List.getElem?_eq_some_iff.1 he).1
  have hterm : (r.rejection args).conflictTerm = e.term := by simp [rejection, he]
  have hindex : (r.rejection args).conflictIndex = 0 := if_pos hlt
  constructor
  · rintro ⟨e', j, -, hj, -, hj0⟩ k hk
    obtain rfl : j = 0 := by rw [hindex] at hj0; exact_mod_cast hj0.symm
    rw [hj.1.2 k (Nat.zero_le k) hk, he]
    rfl
  · refine fun hall => ⟨e, 0, he, ⟨⟨Nat.zero_le _, fun k _ hk => ?_⟩, fun j _ => Nat.zero_le j⟩,
      hterm, hindex⟩
    rw [hall k hk, he]
    rfl

theorem exists_greatest_place {l : List (Log C)} {prev : ℕ} {T : ℤ}
    (h : PlacesOf l prev T ≠ ∅) : ∃ i, IsGreatest (PlacesOf l prev T) i := by
  have hb : BddAbove (PlacesOf l prev T) := ⟨prev, fun i hi => hi.2.1.le⟩
  have hne := Set.nonempty_iff_ne_empty.2 h
  exact ⟨sSup _, Nat.sSup_mem hne hb, fun i hi => le_csSup hb hi⟩

/-- Without a start of the run, the leader goes back to `NextIndex` in any case. -/
theorem backsUp_iff (h : LogWf r.log) {src : Fin n} (hs : reply.success = false)
    (hci : reply.conflictIndex = 0) (hpos : 1 ≤ reply.nextIndex) :
    r.BacksUp src args reply ↔ args.prevLogIndex ≤ r.log.length ∧
      IsGreatest (PlacesOf r.log args.prevLogIndex reply.conflictTerm) reply.nextIndex := by
  have hlast := lastIndex_eq h
  have hset : reply.nextIndex ≤ r.log.length → args.prevLogIndex ≤ r.log.length →
      r.stepLeader (.msgAppResp src r.me args reply) =
        .ok ({ r with nextIndex := Function.update r.nextIndex src reply.nextIndex }, []) := by
    intro hle hprev
    simp only [stepLeader, handleAppResp_reject h hs hle (by rw [hci]) hprev]
    rfl
  constructor
  · rintro ⟨r', heq, hplace, hnone⟩
    obtain ⟨r₁, hr₁, hr'⟩ := bind_eq_ok.1 heq
    have hle : reply.nextIndex ≤ r.log.length := by
      by_contra hgt
      rw [handleAppResp, if_pos (by omega)] at hr₁
      cases hr₁
    have hprev : args.prevLogIndex ≤ r.log.length := by
      by_contra hgt
      rw [handleAppResp_panic h hs hle (by omega)] at hr₁
      cases hr₁
    have hnext : r'.nextIndex src = reply.nextIndex := by
      have := heq.symm.trans (hset hle hprev)
      cases this
      exact Function.update_self _ _ _
    have hne : PlacesOf r.log args.prevLogIndex reply.conflictTerm ≠ ∅ := by
      intro hemp
      have := hnone hemp
      omega
    obtain ⟨i, hi⟩ := exists_greatest_place hne
    rw [← hnext, hplace i hi]
    exact ⟨hprev, hi⟩
  · rintro ⟨hprev, hg⟩
    obtain ⟨-, -, e, he, -⟩ := hg.1
    have hle := (List.getElem?_eq_some_iff.1 he).1.le
    refine ⟨_, hset hle hprev, fun i hi => ?_, fun hemp => ?_⟩
    · rw [hi.unique hg]
      exact Function.update_self _ _ _
    · rw [hemp] at hg
      exact hg.1.elim

/-- The two sides of a rejection do what it is for just when the follower's log is of one term from
the sentinel on, and the leader's last entry of that term before the request's is at the place that
the follower gives as `NextIndex`. -/
theorem backup_iff (r : Raft n C) (args : AppendEntiesArgs n C) (h : LogWf r.log)
    (hcom : r.commitIndex ≤ r.lastIndex) (hprev : args.prevLogIndex ≤ r.lastIndex)
    {r' : Raft n C} {reply : AppendEntiesReply}
    (heq : r.handleAppendEntries args = .ok (r', reply)) (hs : reply.success = false)
    (L : Raft n C) (hL : LogWf L.log) :
    r.TellsConflict args reply ∧ L.BacksUp r.me args reply ↔
      ∃ e, r.log[args.prevLogIndex]? = some e ∧
        (∀ k ≤ args.prevLogIndex, r.log[k]?.map Log.term = some e.term) ∧
        args.prevLogIndex ≤ L.log.length ∧
        IsGreatest (PlacesOf L.log args.prevLogIndex e.term)
          (max 1 (min (r.commitIndex + 1) (args.prevLogIndex - 1))) := by
  have hlast := lastIndex_eq h
  have hlt : args.prevLogIndex < r.log.length := by omega
  obtain rfl := handleAppendEntries_rejected h (by omega) heq hs
  obtain ⟨e, he⟩ : ∃ e, r.log[args.prevLogIndex]? = some e := ⟨_, List.getElem?_eq_getElem hlt⟩
  have hterm : (r.rejection args).conflictTerm = e.term := by simp [rejection, he]
  rw [tellsConflict_iff he, backsUp_iff hL rfl (if_pos hlt) (le_max_left _ _), hterm]
  constructor
  · rintro ⟨hall, hle, hg⟩
    exact ⟨e, he, hall, hle, hg⟩
  · rintro ⟨e', he', hall, hle, hg⟩
    obtain rfl := Option.some.inj (he.symm.trans he')
    exact ⟨hall, hle, hg⟩

/-- A server of two with a log of entries of the given terms. -/
def withTerms (me : Fin 2) (terms : List ℕ) : Raft 2 ℕ :=
  { Raft.zero me none with
    currentTerm := 4
    log := sentinel :: terms.mapIdx fun i term => ⟨term, none, i + 1⟩ }

/-- A request of the leader of two servers. -/
def probe (prevLogIndex prevLogTerm : ℕ) : AppendEntiesArgs 2 ℕ :=
  ⟨4, p₀, 0, prevLogIndex, prevLogTerm, []⟩

theorem backup_iff_shortRun :
    ∃ r' reply, (withTerms p₁ [1, 1]).handleAppendEntries (probe 2 2) =
        .ok (r', reply) ∧
      (withTerms p₁ [1, 1]).TellsConflict (probe 2 2) reply ∧
      (withTerms p₀ [1, 2]).BacksUp p₁ (probe 2 2) reply := by
  have heq : ∃ r' reply, (withTerms p₁ [1, 1]).handleAppendEntries (probe 2 2) =
      .ok (r', reply) ∧ reply.success = false := ⟨_, _, rfl, rfl⟩
  obtain ⟨r', reply, heq, hs⟩ := heq
  refine ⟨r', reply, heq, (backup_iff (withTerms p₁ [1, 1]) (probe 2 2)
    (.of_map_index (by decide) rfl) (by decide) (by decide) heq hs
    (withTerms p₀ [1, 2]) (.of_map_index (by decide) rfl)).2
    ⟨⟨1, none, 2⟩, rfl, by decide, by decide, ⟨by decide, by decide, ⟨1, none, 1⟩, rfl, rfl⟩, ?_⟩⟩
  rintro i ⟨-, hi, -⟩
  have hi : i < 2 := hi
  have hmax : max 1 (min ((withTerms p₁ [1, 1]).commitIndex + 1)
    ((probe 2 2).prevLogIndex - 1)) = 1 := rfl
  omega

/-- The run of the conflicting term starts at 2, and the leader has no entry of that term. The reply
has 0 for the start, and the leader goes back to 1. -/
theorem longRun_index_lost :
    RunStart (withTerms p₁ [1, 2, 2, 2]).log 4 2 ∧
    PlacesOf (withTerms p₀ [1, 3, 3, 3]).log 4 2 = ∅ ∧
    ∃ r' reply L', (withTerms p₁ [1, 2, 2, 2]).handleAppendEntries (probe 4 3) =
        .ok (r', reply) ∧
      reply.success = false ∧ reply.conflictTerm = 2 ∧ reply.conflictIndex = 0 ∧
      (withTerms p₀ [1, 3, 3, 3]).stepLeader
        (.msgAppResp p₁ p₀ (probe 4 3) reply) = .ok (L', []) ∧
      L'.nextIndex p₁ = 1 := by
  refine ⟨⟨⟨by decide, ?_⟩, ?_⟩, ?_, _, _, _, rfl, rfl, rfl, rfl, rfl, rfl⟩
  · decide
  · rintro j ⟨-, hj⟩
    by_contra hlt
    have := hj 1 (by omega) (by decide)
    simp [withTerms] at this
  · refine Set.eq_empty_of_forall_notMem ?_
    have hall : ∀ i < 4, (withTerms p₀ [1, 3, 3, 3]).log[i]?.map Log.term ≠ some 2 := by decide
    rintro i ⟨-, hi, e, he, ht⟩
    have ht : e.term = 2 := by omega
    exact hall i hi (by rw [he, Option.map_some, ht])

end Raft

/-! ## Repairing a log -/

/-- A leader and a follower, and the last answer. -/
structure Exchange (n : ℕ) (C : Type) where
  leader : Raft n C
  follower : Raft n C
  reply : Option AppendEntiesReply

namespace Exchange

/-- What a broadcast has for `i`. -/
def requestTo (i : Fin n) (msgs : List (Message n C)) : Option (AppendEntiesArgs n C) :=
  msgs.findSome? fun m =>
    match m with
    | .msgApp dst args => if dst = i then some args else none
    | _ => none

/-- The leader broadcasts, the follower handles the request, and the leader its answer. -/
def round (x : Exchange n C) : Go n C (Exchange n C) := do
  let (leader, msgs) ← x.leader.bcastAppend
  match requestTo x.follower.me msgs with
  | none => return ⟨leader, x.follower, none⟩
  | some args =>
    let (follower, reply) ← x.follower.handleAppendEntries args
    let (leader, _) ← leader.stepLeader (.msgAppResp follower.me leader.me args reply)
    return ⟨leader, follower, some reply⟩

def rounds : ℕ → Exchange n C → Go n C (Exchange n C)
  | 0, x => return x
  | k + 1, x => do rounds k (← x.round)

/-- The log of the follower is what the leader's log may be brought to: they agree on what the
follower has committed, and on what is before an entry of one term. The leader's indices are in
range. -/
structure Ok (x : Exchange n C) : Prop where
  me : x.follower.me ≠ x.leader.me
  leader : LogWf x.leader.log
  commit : x.leader.commitIndex ≤ x.leader.lastIndex
  next : ∀ i, i ≠ x.leader.me → 1 ≤ x.leader.nextIndex i ∧
    x.leader.nextIndex i ≤ x.leader.lastIndex + 1
  matched : ∀ i, x.leader.matchIndex i ≤ x.leader.lastIndex
  follower : LogWf x.follower.log
  committed : x.follower.commitIndex ≤ x.follower.lastIndex
  agree : x.follower.log.take (x.follower.commitIndex + 1) =
    x.leader.log.take (x.follower.commitIndex + 1)
  matching : Matching x.follower.log x.leader.log

/-- The follower has the leader's log, and the leader knows. -/
structure Repaired (x : Exchange n C) : Prop where
  success : ∃ reply, x.reply = some reply ∧ reply.success = true
  log : x.leader.log <+: x.follower.log
  matched : x.leader.matchIndex x.follower.me = x.leader.lastIndex

/-- The previous index of the next request. -/
def prev (x : Exchange n C) : ℕ := x.leader.nextIndex x.follower.me - 1

theorem requestTo_map {i : Fin n} {l : List (Fin n)} (h : i ∈ l)
    (g : Fin n → AppendEntiesArgs n C) :
    requestTo i (l.map fun j => .msgApp j (g j)) = some (g i) := by
  induction l with
  | nil => simp at h
  | cons j l ih =>
    by_cases hj : j = i
    · subst hj
      simp [requestTo]
    · have hl := ih ((List.mem_cons.1 h).resolve_left (Ne.symm hj))
      simpa [requestTo, hj] using hl

variable {x : Exchange n C}

namespace Ok

variable (h : x.Ok)
include h

theorem nextIndex :
    x.leader.nextIndex x.follower.me = x.prev + 1 ∧ x.prev < x.leader.log.length := by
  have := h.next _ h.me
  have := Raft.lastIndex_eq h.leader
  unfold prev
  omega

theorem request :
    FromLeader (x.leader.request x.follower.me) x.leader.log x.leader.commitIndex := by
  have := h.next _ h.me
  have := Raft.lastIndex_eq h.leader
  exact Raft.request_fromLeader (by omega) (by omega)

theorem committed_lt : x.follower.commitIndex < x.follower.log.length := by
  have := Raft.lastIndex_eq h.follower
  have := h.committed
  omega

/-- What the follower has committed is in the leader's log. -/
theorem committed_lt_leader : x.follower.commitIndex < x.leader.log.length := by
  have hlen := congrArg List.length h.agree
  have := h.committed_lt
  simp only [List.length_take] at hlen
  omega

/-- A round, once the follower has answered. -/
theorem round_eq {follower : Raft n C} {reply : AppendEntiesReply}
    (hf : x.follower.handleAppendEntries (x.leader.request x.follower.me) = .ok (follower, reply))
    {leader : Raft n C} (hme : follower.me = x.follower.me)
    (hl : x.leader.persist.handleAppResp x.follower.me (x.leader.request x.follower.me) reply =
      .ok leader) : x.round = .ok ⟨leader, follower, some reply⟩ := by
  have hlast := Raft.lastIndex_eq h.leader
  have hb := Raft.bcastAppend_eq h.leader fun i hi => by
    rw [← hlast]
    exact h.next i hi
  have hreq := requestTo_map (Raft.mem_peers.2 h.me) x.leader.request
  unfold round
  rw [hb]
  simp only [bind, Except.bind, hreq, hf, Raft.stepLeader, hme, hl]
  rfl

omit h in
/-- What a round does to the leader's records keeps them in range. -/
theorem of_records {y : Exchange n C} (h : x.Ok) {k : ℕ} (hk : 1 ≤ k)
    (hk' : k ≤ x.leader.log.length)
    (hme : y.leader.me = x.leader.me) (hlog : y.leader.log = x.leader.log)
    (hcommit : y.leader.commitIndex < x.leader.log.length)
    (hnext : y.leader.nextIndex = Function.update x.leader.nextIndex x.follower.me k)
    (hmatch : ∀ i, y.leader.matchIndex i < x.leader.log.length)
    (hf : y.follower = x.follower.heard x.leader.me) : y.Ok := by
  have hlast : y.leader.lastIndex + 1 = x.leader.log.length := by
    rw [Raft.lastIndex_eq (by rw [hlog]; exact h.leader), hlog]
  have hlast' := Raft.lastIndex_eq h.leader
  refine ⟨?_, ?_, by omega, fun i hi => ?_, fun i => ?_, ?_, ?_, ?_, ?_⟩
  · rw [hf, hme]
    exact h.me
  · rw [hlog]
    exact h.leader
  · rw [hnext, hlast]
    by_cases hif : i = x.follower.me
    · subst hif
      rw [Function.update_self]
      exact ⟨hk, hk'⟩
    · rw [Function.update_of_ne hif, ← hlast']
      exact h.next i (hme ▸ hi)
  · have := hmatch i
    omega
  · rw [hf]
    exact h.follower
  · rw [hf]
    exact h.committed
  · rw [hf, hlog]
    exact h.agree
  · rw [hf, hlog]
    exact h.matching

/-- The leader's records after a success. -/
theorem accept (reply : AppendEntiesReply) (hs : reply.success = true)
    (hlo : x.prev < reply.nextIndex) (hhi : reply.nextIndex ≤ x.leader.log.length) :
    ∃ leader, x.leader.persist.handleAppResp x.follower.me (x.leader.request x.follower.me) reply =
        .ok leader ∧
      leader.me = x.leader.me ∧ leader.log = x.leader.log ∧
      leader.commitIndex < x.leader.log.length ∧
      leader.nextIndex = Function.update x.leader.nextIndex x.follower.me reply.nextIndex ∧
      leader.matchIndex =
        Function.update x.leader.matchIndex x.follower.me (reply.nextIndex - 1) ∧
      ∀ i, leader.matchIndex i < x.leader.log.length := by
  have hlast := Raft.lastIndex_eq h.leader
  have hcommit := h.commit
  have hmatch : ∀ i, (x.leader.persist.accepted x.follower.me reply.nextIndex).matchIndex i <
      x.leader.log.length := by
    intro i
    by_cases hi : i = x.follower.me
    · subst hi
      simp only [Raft.accepted, Function.update_self]
      omega
    · have := h.matched i
      simp only [Raft.accepted, Function.update_of_ne hi, Raft.persist]
      omega
  have heq : x.leader.persist.handleAppResp x.follower.me (x.leader.request x.follower.me) reply =
    _ := Raft.handleAppResp_success (r := x.leader.persist) h.leader hs hhi
  have hge : x.leader.persist.nextIndex x.follower.me ≤ reply.nextIndex :=
    h.nextIndex.1.trans_le hlo
  rw [if_pos hge] at heq
  rcases Raft.updateCommitIndex_spec (r := x.leader.persist.accepted x.follower.me reply.nextIndex)
    h.leader hmatch (Fin.pos x.follower.me) with hup | ⟨k, e, he, -, -, -, hup⟩
  · exact ⟨_, heq.trans hup, rfl, rfl, show x.leader.commitIndex < _ by omega, rfl, rfl, hmatch⟩
  · exact ⟨_, heq.trans hup, rfl, rfl, (List.getElem?_eq_some_iff.1 he).1, rfl, rfl, hmatch⟩

/-- A request from before what is committed moves the next index past that. -/
theorem round_unordered (hun : x.prev < x.follower.commitIndex) :
    ∃ y, x.round = .ok y ∧ y.Ok ∧ y.leader.log = x.leader.log ∧
      y.follower = x.follower.heard x.leader.me ∧ y.prev = x.follower.commitIndex := by
  have hpos : x.prev < (x.follower.appendUnordered).nextIndex := Nat.lt_succ_of_lt hun
  have hle : (x.follower.appendUnordered).nextIndex ≤ x.leader.log.length := h.committed_lt_leader
  obtain ⟨leader, heq, hme, hlog, hcommit, hnext, -, hmatch⟩ := h.accept _ rfl hpos hle
  refine ⟨_, h.round_eq (Raft.handleAppendEntries_unordered h.follower h.committed_lt hun) rfl heq,
    h.of_records (Nat.succ_pos _) hle hme hlog hcommit hnext hmatch rfl, hlog, rfl, ?_⟩
  have : leader.nextIndex x.follower.me = x.follower.commitIndex + 1 := by
    rw [hnext, Function.update_self]
    rfl
  exact Nat.sub_eq_of_eq_add this

/-- A rejection moves the next index to what the follower has committed, or before that. -/
theorem round_mismatched (hun : ¬ x.prev < x.follower.commitIndex)
    (hp : x.follower.log[x.prev]?.map Log.term ≠ x.leader.log[x.prev]?.map Log.term) :
    ∃ y, x.round = .ok y ∧ y.Ok ∧ y.leader.log = x.leader.log ∧
      y.follower = x.follower.heard x.leader.me ∧ y.prev ≤ x.follower.commitIndex := by
  have hlast := Raft.lastIndex_eq h.leader
  have hcommit := h.commit
  have hnext := h.nextIndex
  have hle : (x.follower.rejection (x.leader.request x.follower.me)).nextIndex ≤
      x.leader.log.length := by
    have := h.committed_lt_leader
    simp only [Raft.rejection]
    omega
  have hreject : x.follower.handleAppendEntries (x.leader.request x.follower.me) = _ :=
    Raft.handleAppendEntries_mismatched h.follower h.committed_lt hun (h.request.prev ▸ hp)
  have hl : x.leader.persist.handleAppResp x.follower.me (x.leader.request x.follower.me)
      (x.follower.rejection (x.leader.request x.follower.me)) = _ :=
    Raft.handleAppResp_reject (r := x.leader.persist) h.leader rfl hle
      (by simp only [Raft.rejection]; split_ifs <;> decide) hnext.2.le
  refine ⟨_, h.round_eq hreject rfl hl, h.of_records (le_max_left _ _) hle rfl rfl
    (show x.leader.commitIndex < _ by omega) rfl (fun i => ?_) rfl, rfl, rfl, ?_⟩
  · have := h.matched i
    exact show x.leader.matchIndex i < _ by omega
  · simp only [prev, Raft.heard, Function.update_self, Raft.rejection]
    omega

/-- A request whose previous entry is there repairs the log. -/
theorem round_matched (hun : ¬ x.prev < x.follower.commitIndex)
    (hp : x.follower.log[x.prev]?.map Log.term = x.leader.log[x.prev]?.map Log.term) :
    ∃ y, x.round = .ok y ∧ y.Repaired ∧ y.leader.log = x.leader.log ∧
      y.follower.me = x.follower.me := by
  have hlast := Raft.lastIndex_eq h.leader
  have hcommit := h.commit
  have hmatched := Raft.handleAppendEntries_matched h.follower h.leader h.matching h.request
    (by omega) hun (hp.trans h.request.prev)
  obtain ⟨leader, heq, hme, hlog, -, -, hmatch, -⟩ :=
    h.accept ⟨_, true, _, _, 0, 0⟩ rfl h.nextIndex.2 le_rfl
  refine ⟨_, h.round_eq hmatched rfl heq, ⟨⟨_, rfl, rfl⟩, ?_, ?_⟩, hlog, rfl⟩
  · rw [hlog]
    exact Replog.prefix_merge _ _
  · have hll : leader.lastIndex + 1 = x.leader.log.length := by
      rw [Raft.lastIndex_eq (by rw [hlog]; exact h.leader), hlog]
    simp only [hmatch, Function.update_self]
    omega

/-- A request from just what is committed repairs the log. -/
theorem repaired_of_eq (heq : x.prev = x.follower.commitIndex) :
    ∃ y, x.round = .ok y ∧ y.Repaired ∧ y.leader.log = x.leader.log ∧
      y.follower.me = x.follower.me := by
  refine h.round_matched (by omega) ?_
  have hget : ∀ l : List (Log C), l[x.prev]? = (l.take (x.follower.commitIndex + 1))[x.prev]? :=
    fun l => (List.getElem?_take_of_lt (by omega)).symm
  rw [hget x.follower.log, hget x.leader.log, h.agree]

theorem repaired_of_le (hle : x.prev ≤ x.follower.commitIndex) :
    ∃ k ≤ 2, ∃ y, rounds k x = .ok y ∧ y.Repaired ∧ y.leader.log = x.leader.log ∧
      y.follower.me = x.follower.me := by
  rcases hle.eq_or_lt with heq | hlt
  · obtain ⟨y, hy, hrep⟩ := h.repaired_of_eq heq
    exact ⟨1, by omega, y, by simp [rounds, hy, bind, Except.bind, pure, Except.pure], hrep⟩
  · obtain ⟨y, hy, hok, hlog, hf, hprev⟩ := h.round_unordered hlt
    obtain ⟨z, hz, hrep, hlog', hme⟩ := hok.repaired_of_eq (by rw [hprev, hf]; rfl)
    exact ⟨2, le_rfl, z, by simp [rounds, hy, hz, bind, Except.bind, pure, Except.pure], hrep,
      hlog'.trans hlog, hme.trans (by rw [hf]; rfl)⟩

end Ok

/-- After three rounds at most the leader has got a success and knows that the follower has its
whole log. -/
theorem repaired_within_three (x : Exchange n C) (h : x.Ok) :
    ∃ k ≤ 3, ∃ y, rounds k x = .ok y ∧ y.Repaired ∧ y.leader.log = x.leader.log ∧
      y.follower.me = x.follower.me := by
  by_cases hun : x.prev < x.follower.commitIndex
  · obtain ⟨k, hk, hy⟩ := h.repaired_of_le hun.le
    exact ⟨k, by omega, hy⟩
  by_cases hp : x.follower.log[x.prev]?.map Log.term = x.leader.log[x.prev]?.map Log.term
  · obtain ⟨y, hy, hrep⟩ := h.round_matched hun hp
    exact ⟨1, by omega, y, by simp [rounds, hy, bind, Except.bind, pure, Except.pure], hrep⟩
  · obtain ⟨y, hy, hok, hlog, hf, hprev⟩ := h.round_mismatched hun hp
    obtain ⟨k, hk, z, hz, hrep, hlog', hme⟩ := hok.repaired_of_le (by rw [hf]; exact hprev)
    exact ⟨k + 1, by omega, z, by simp [rounds, hy, hz, bind, Except.bind], hrep, hlog'.trans hlog,
      hme.trans (by rw [hf]; rfl)⟩

/-- The first request is rejected, the second is from before what is committed, the third is from
there. -/
def threeRounds : Exchange 2 ℕ where
  leader := { Raft.withTerms p₀ [1, 3] with nextIndex := fun _ => 3 }
  follower := { Raft.withTerms p₁ [1, 2, 2] with commitIndex := 1 }
  reply := none

theorem threeRounds_repaired :
    threeRounds.Ok ∧ ∃ k ≤ 3, ∃ y, rounds k threeRounds = .ok y ∧ y.Repaired := by
  have hterms : ∀ i < 4, threeRounds.follower.log[i]?.map Log.term =
      threeRounds.leader.log[i]?.map Log.term →
        threeRounds.follower.log.take (i + 1) = threeRounds.leader.log.take (i + 1) := by decide
  have hmatch : Matching threeRounds.follower.log threeRounds.leader.log := by
    intro i a b ha hb ht
    exact hterms i (List.getElem?_eq_some_iff.1 ha).1 (by rw [ha, hb, Option.map_some, ht]; rfl)
  have hok : threeRounds.Ok := ⟨by decide, .of_map_index (by decide) rfl, by decide, by decide,
    by decide, .of_map_index (by decide) rfl, by decide, by decide, hmatch⟩
  obtain ⟨k, hk, y, hy, hrep, -⟩ := repaired_within_three threeRounds hok
  exact ⟨hok, k, hk, y, hy, hrep⟩

end Exchange

end DistSystem
