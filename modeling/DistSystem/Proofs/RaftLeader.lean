import DistSystem.Lib.Fallible
import DistSystem.Lib.OrderStat
import DistSystem.Proofs.RaftAppend
import Mathlib.Data.Fintype.Basic
import Mathlib.Data.Finset.Card

/-!
# What candidates and leaders send and count

With a well-formed log and next indices in range a broadcast does not panic, and each request in
it is one a leader with this log sends. Advancing the commit index takes an entry of the leader's
term that a quorum's match indices reach.
-/

namespace DistSystem

variable {n : ℕ} {C : Type}

theorem countP_finRange (p : Fin n → Bool) :
    (List.finRange n).countP p = (Finset.univ.filter fun i => p i = true).card := by
  rw [List.countP_eq_length_filter,
    ← List.toFinset_card_of_nodup ((List.nodup_finRange n).filter p)]
  congr 1
  ext i
  simp

namespace Raft

variable {r : Raft n C}

@[simp] theorem abs_persist (r : Raft n C) : r.persist.abs = r.abs := rfl

theorem mem_peers {i : Fin n} : i ∈ r.peers ↔ i ≠ r.me := by
  simp [peers]

/-! ## Sending -/

theorem lastTerm_eq (h : LogWf r.log) : r.lastTerm = .ok r.lastLog.term := by
  have hl := lastIndex_eq h
  have hidx : r.log[r.lastIndex]? = some r.lastLog := by
    rw [show r.lastIndex = r.log.length - 1 by omega]
    exact getElem?_lastLog h.ne
  simp [lastTerm, entry_of_getElem? hidx, bind, Except.bind, pure, Except.pure]

/-- The arguments of the vote requests. -/
def voteArgs (r : Raft n C) : RequestVoteArgs n :=
  ⟨r.currentTerm, r.me, r.lastIndex, r.lastLog.term⟩

theorem bcastRequestVoteRPC_eq (h : LogWf r.log) :
    r.bcastRequestVoteRPC =
      .ok (r.persist, r.peers.map fun i => .msgVote i r.voteArgs) := by
  have hall : (r.peers.mapM fun i => do
      return Message.msgVote i ⟨r.persist.currentTerm, r.persist.me, r.persist.lastIndex,
        ← r.persist.lastTerm⟩ : Go n C (List (Message n C)))
      = .ok (r.peers.map fun i => .msgVote i r.voteArgs) :=
    mapM_eq_map fun i _ => by
      rw [lastTerm_eq (by exact h)]
      rfl
  simp only [bcastRequestVoteRPC]
  rw [show r.persist.peers = r.peers from rfl, hall]
  rfl

/-- The arguments of the request to `i`. -/
def request (r : Raft n C) (i : Fin n) : AppendEntiesArgs n C :=
  ⟨r.currentTerm, r.me, r.commitIndex, r.nextIndex i - 1,
    (r.log.getD (r.nextIndex i - 1) sentinel).term, r.log.drop (r.nextIndex i - 1 + 1)⟩

theorem appendArgs_eq (h : LogWf r.log) {i : Fin n} (h1 : 1 ≤ r.nextIndex i)
    (h2 : r.nextIndex i ≤ r.log.length) : r.appendArgs i = .ok (r.request i) := by
  have hl := lastIndex_eq h
  have hlt : r.nextIndex i - 1 < r.log.length := by omega
  have hto : ((r.nextIndex i : ℤ) - 1).toNat = r.nextIndex i - 1 := by omega
  simp only [appendArgs, if_neg (show ¬ ((r.nextIndex i : ℤ) - 1 < 0 ∨
    (r.nextIndex i : ℤ) - 1 > r.lastIndex) by omega), hto,
    entry_of_getElem? (List.getElem?_eq_getElem hlt), bind, Except.bind, pure, Except.pure, request,
    List.getD_eq_getElem?_getD, List.getElem?_eq_getElem hlt, Option.getD_some]

theorem request_fromLeader {i : Fin n} (h1 : 1 ≤ r.nextIndex i)
    (h2 : r.nextIndex i ≤ r.log.length) : FromLeader (r.request i) r.log r.commitIndex := by
  have hlt : r.nextIndex i - 1 < r.log.length := by omega
  exact ⟨by simp [request, List.getElem?_eq_getElem hlt], rfl, rfl⟩

theorem bcastAppend_raft {x : Raft n C × List (Message n C)} (h : r.bcastAppend = .ok x) :
    x.1 = r.persist := by
  simp only [bcastAppend, bind, Except.bind] at h
  split at h
  · simp at h
  · rw [← Except.ok.inj h]

/-- A broadcast of a leader with next indices in range. -/
theorem bcastAppend_eq (h : LogWf r.log)
    (hn : ∀ i, i ≠ r.me → 1 ≤ r.nextIndex i ∧ r.nextIndex i ≤ r.log.length) :
    r.bcastAppend = .ok (r.persist, r.peers.map fun i => .msgApp i (r.request i)) := by
  have hall : (r.peers.mapM fun i => do return Message.msgApp i (← r.persist.appendArgs i) :
      Go n C (List (Message n C))) = .ok (r.peers.map fun i => .msgApp i (r.request i)) :=
    mapM_eq_map fun i hi => by
      obtain ⟨h1, h2⟩ := hn i (mem_peers.1 hi)
      rw [appendArgs_eq (r := r.persist) h h1 h2]
      rfl
  simp only [bcastAppend]
  rw [show r.persist.peers = r.peers from rfl, hall]
  rfl

theorem bcastAppend_ok (h : LogWf r.log)
    (hn : ∀ i, i ≠ r.me → 1 ≤ r.nextIndex i ∧ r.nextIndex i ≤ r.log.length) :
    ∃ msgs, r.bcastAppend = .ok (r.persist, msgs) ∧ ∀ m ∈ msgs, ∃ i args, i ≠ r.me ∧
      m = .msgApp i args ∧ args.term = r.currentTerm ∧ args.leaderId = r.me ∧
      FromLeader args r.log r.commitIndex := by
  refine ⟨_, bcastAppend_eq h hn, fun m hm => ?_⟩
  obtain ⟨i, hi, rfl⟩ := List.mem_map.1 hm
  obtain ⟨h1, h2⟩ := hn i (mem_peers.1 hi)
  exact ⟨i, _, mem_peers.1 hi, rfl, rfl, rfl, request_fromLeader h1 h2⟩

/-! ## Counting -/

theorem countVotes_eq (r : Raft n C) (v : Bool) :
    r.countVotes v = (Finset.univ.filter fun i => r.votes i = some v).card := by
  simp [countVotes, countP_finRange]

theorem le_lastIndex (h : LogWf r.log) {f : Fin n → ℕ} (hf : ∀ i, f i < r.log.length) (i : Fin n) :
    f i ≤ r.lastIndex := by
  have := lastIndex_eq h
  have := hf i
  omega

/-- The commit index is raised to the largest index that a quorum reaches, if that is further on and
the entry there is of the leader's term. -/
theorem updateCommitIndex_eq (hm : ∀ i, r.matchIndex i < r.log.length)
    (hlast : ∀ i, r.matchIndex i ≤ r.lastIndex) (hn : 0 < n) :
    ∃ mci e, (∀ N, n / 2 + 1 ≤ (Finset.univ.filter fun i => N ≤ r.matchIndex i).card ↔ N ≤ mci) ∧
      r.log[mci]? = some e ∧ r.updateCommitIndex =
        .ok (if r.commitIndex < mci ∧ e.term = r.currentTerm then
          { r with commitIndex := mci, commitc := some mci } else r) := by
  have hlen : n / 2 < ((List.ofFn r.matchIndex).insertionSort (· ≥ ·)).length := by
    simp only [List.length_insertionSort, List.length_ofFn]
    omega
  obtain ⟨mci, hmci⟩ : ∃ mci, ((List.ofFn r.matchIndex).insertionSort (· ≥ ·))[n / 2]? = some mci :=
    ⟨_, List.getElem?_eq_getElem hlen⟩
  have hmem : mci ∈ List.ofFn r.matchIndex :=
    List.mem_insertionSort _ |>.1 (List.mem_of_getElem? hmci)
  obtain ⟨i, hi⟩ := List.mem_ofFn.1 hmem
  have hlt : mci < r.log.length := hi ▸ hm i
  have hle : mci ≤ r.lastIndex := hi ▸ hlast i
  refine ⟨mci, _, fun N => ?_, List.getElem?_eq_getElem hlt, ?_⟩
  · have := OrderStat.lt_countP_iff hmci N
    rw [List.ofFn_eq_map, List.countP_map, countP_finRange] at this
    simpa [Nat.succ_le_iff] using this
  · have hq : r.quorum - 1 = n / 2 := by simp [quorum]
    simp only [updateCommitIndex, hq, hmci]
    by_cases hgt : mci > r.commitIndex
    · simp only [if_pos hgt, entry_of_getElem? (List.getElem?_eq_getElem hlt), bind, Except.bind,
        beq_iff_eq]
      by_cases ht : r.log[mci].term = r.currentTerm
      · rw [if_pos ht, if_pos ⟨hgt, ht⟩, commitTo, if_neg (Nat.not_lt.2 hle),
          if_pos hgt]
      · rw [if_neg ht, if_neg (fun hc => ht hc.2)]
        rfl
    · rw [if_neg hgt, if_neg (fun hc => hgt hc.1)]
      rfl

/-- A commit index is advanced only to an entry of the leader's term that a quorum reaches. -/
theorem updateCommitIndex_spec (h : LogWf r.log) (hm : ∀ i, r.matchIndex i < r.log.length)
    (hn : 0 < n) :
    r.updateCommitIndex = .ok r ∨ ∃ k e, r.log[k]? = some e ∧ e.term = r.currentTerm ∧
      r.commitIndex < k ∧ n / 2 + 1 ≤ (Finset.univ.filter fun i => k ≤ r.matchIndex i).card ∧
      r.updateCommitIndex = .ok { r with commitIndex := k, commitc := some k } := by
  obtain ⟨mci, e, hcount, he, heq⟩ := updateCommitIndex_eq hm (le_lastIndex h hm) hn
  split_ifs at heq with hc
  · exact .inr ⟨mci, e, he, hc.2, hc.1, (hcount mci).2 le_rfl, heq⟩
  · exact .inl heq

/-! ## Answers -/

theorem scanTerm_ok (t : ℤ) : ∀ i, i < r.log.length → ∃ k ≤ i, r.scanTerm t i = .ok k
  | 0, _ => ⟨0, le_rfl, rfl⟩
  | i + 1, hi => by
    obtain ⟨k, hk, hs⟩ := scanTerm_ok t i (by omega)
    simp only [scanTerm, entry_of_getElem? (List.getElem?_eq_getElem hi), bind, Except.bind]
    split_ifs
    · exact ⟨i + 1, le_rfl, rfl⟩
    · exact ⟨k, by omega, hs⟩

theorem scanTerm_panic (t : ℤ) {i : ℕ} (hi : r.log.length ≤ i) (h0 : 0 < i) :
    r.scanTerm t i = .error ⟨r, "index out of range", false⟩ := by
  obtain ⟨i, rfl⟩ : ∃ j, i = j + 1 := ⟨i - 1, by omega⟩
  simp [scanTerm, entry_of_not_lt (Nat.not_lt.2 hi), bind, Except.bind]

/-- A rejection only moves the next index, if the entry before the request's is still there. -/
theorem handleAppResp_reject (h : LogWf r.log) {src : Fin n} {args : AppendEntiesArgs n C}
    {reply : AppendEntiesReply} (hs : reply.success = false)
    (hle : reply.nextIndex ≤ r.log.length) (hci : reply.conflictIndex ≤ 0)
    (hprev : args.prevLogIndex ≤ r.log.length) :
    r.handleAppResp src args reply =
      .ok { r with nextIndex := Function.update r.nextIndex src reply.nextIndex } := by
  have hlast := lastIndex_eq h
  have hpos := List.length_pos_iff.2 h.ne
  obtain ⟨k, -, hk⟩ := scanTerm_ok (r := r) reply.conflictTerm (args.prevLogIndex - 1) (by omega)
  simp only [handleAppResp, hs, hk, bind, Except.bind, if_neg (show ¬ reply.nextIndex >
    r.lastIndex + 1 by omega), Bool.false_eq_true, if_false, pure, Except.pure]
  rw [if_neg (by omega)]

/-- A rejection of a request from where the log no longer reaches is an index out of range. -/
theorem handleAppResp_panic (h : LogWf r.log) {src : Fin n} {args : AppendEntiesArgs n C}
    {reply : AppendEntiesReply} (hs : reply.success = false)
    (hle : reply.nextIndex ≤ r.log.length) (hprev : r.log.length < args.prevLogIndex) :
    r.handleAppResp src args reply = .error ⟨r, "index out of range", false⟩ := by
  have hlast := lastIndex_eq h
  have hpos := List.length_pos_iff.2 h.ne
  simp only [handleAppResp, hs, scanTerm_panic (r := r) reply.conflictTerm
    (show r.log.length ≤ args.prevLogIndex - 1 by omega) (by omega), bind, Except.bind,
    if_neg (show ¬ reply.nextIndex > r.lastIndex + 1 by omega), Bool.false_eq_true, if_false]

theorem handleAppResp_success (h : LogWf r.log) {src : Fin n} {args : AppendEntiesArgs n C}
    {reply : AppendEntiesReply} (hs : reply.success = true)
    (hle : reply.nextIndex ≤ r.log.length) :
    r.handleAppResp src args reply =
      if r.nextIndex src ≤ reply.nextIndex then
        { r with
          nextIndex := Function.update r.nextIndex src reply.nextIndex
          matchIndex := Function.update r.matchIndex src (reply.nextIndex - 1) }.updateCommitIndex
      else .ok r := by
  have hlast := lastIndex_eq h
  simp only [handleAppResp, hs, if_neg (show ¬ reply.nextIndex > r.lastIndex + 1 by omega), if_true,
    ge_iff_le]

end Raft

end DistSystem
