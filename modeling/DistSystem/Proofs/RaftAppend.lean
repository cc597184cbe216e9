import DistSystem.Proofs.RaftServer

/-!
# Following a leader

A follower takes the entries of a request from the first one on that it does not have by its term
(`FirstNew`), and cuts off what it had from there (`splice`). A request built from a leader's log
`L` (`FromLeader`) carries all of `L` from some point on, so a follower that takes it ends with `L`,
or keeps a log that extends `L` (`handleAppendEntries_spec`).
-/

namespace DistSystem

open Replog (merge)

variable {n : ℕ} {C : Type}

/-! ## New entries in a log -/

/-- The log has an entry of the same term at the place of `ents[j]`, if `ents` is for the places
from `off` on. -/
def Held (l : List (Log C)) (off : ℕ) (ents : List (Log C)) (j : ℕ) : Prop :=
  l[off + j]?.map Log.term = ents[j]?.map Log.term

/-- The log has another entry at the place of one of `ents`. -/
def Conflicts (l : List (Log C)) (off : ℕ) (ents : List (Log C)) : Prop :=
  ∃ j a e, l[off + j]? = some a ∧ ents[j]? = some e ∧ a.term ≠ e.term

/-- `ents` start at `off` and carry their own positions. -/
def Consecutive (off : ℕ) (ents : List (Log C)) : Prop :=
  ∀ {j : ℕ} {e : Log C}, ents[j]? = some e → e.index = off + j

/-- The first `k` of the entries are held and the next is not. -/
structure FirstNew (l : List (Log C)) (off : ℕ) (ents : List (Log C)) (k : ℕ) : Prop where
  le : k ≤ ents.length
  held : ∀ {j : ℕ}, j < k → Held l off ents j
  new : k < ents.length → ¬ Held l off ents k

/-- The log with the entries from the `k`-th on in the place of its own. -/
def splice (l : List (Log C)) (off : ℕ) (ents : List (Log C)) (k : ℕ) : List (Log C) :=
  if k = ents.length then l else l.take (off + k) ++ ents.drop k

/-- What a log with some of the entries becomes: it has all of them by term, what was before the
first new one is kept, and what was behind them is cut off just when one conflicted. -/
structure Appended (l : List (Log C)) (off : ℕ) (ents l' : List (Log C)) : Prop where
  held : ∀ {j : ℕ}, j < ents.length → Held l' off ents j
  kept : ∀ {k : ℕ}, k ≤ ents.length → (∀ j < k, Held l off ents j) →
    l'.take (off + k) = l.take (off + k)
  tail : ¬ Conflicts l off ents → l'.drop (off + ents.length) = l.drop (off + ents.length)
  cut : Conflicts l off ents → l'.drop (off + ents.length) = []

section Splice

variable {l ents : List (Log C)} {off k : ℕ}

theorem held_succ {e : Log C} {j : ℕ} :
    Held l off (e :: ents) (j + 1) ↔ Held l (off + 1) ents j := by
  unfold Held
  rw [show off + (j + 1) = off + 1 + j by omega, List.getElem?_cons_succ]

theorem Held.lt {j : ℕ} (h : Held l off ents j) (hj : j < ents.length) : off + j < l.length := by
  unfold Held at h
  rw [List.getElem?_eq_getElem hj] at h
  obtain ⟨a, ha, -⟩ := Option.map_eq_some_iff.1 h
  exact (List.getElem?_eq_some_iff.1 ha).1

theorem held_of_take {l' : List (Log C)} {j : ℕ} (h : l'.take (off + k) = l.take (off + k))
    (hj : j < k) : Held l' off ents j ↔ Held l off ents j := by
  have hget : ∀ x : List (Log C), x[off + j]? = (x.take (off + k))[off + j]? := fun x =>
    (List.getElem?_take_of_lt (by omega)).symm
  unfold Held
  rw [hget l', hget l, h]

theorem splice_of_lt (hk : k < ents.length) :
    splice l off ents k = l.take (off + k) ++ ents.drop k := if_neg hk.ne

namespace FirstNew

variable (h : FirstNew l off ents k)
include h

/-- Held entries are in the log. -/
theorem reach (hoff : off ≤ l.length) : off + k ≤ l.length := by
  cases k with
  | zero => exact hoff
  | succ k => exact (h.held k.lt_succ_self).lt h.le

theorem splice_take (hoff : off ≤ l.length) {i : ℕ} (hi : i ≤ off + k) :
    (splice l off ents k).take i = l.take i := by
  have := h.reach hoff
  rcases h.le.eq_or_lt with hk | hk
  · rw [splice, if_pos hk]
  · rw [splice_of_lt hk, List.take_append_of_le_length (by rw [List.length_take]; omega),
      List.take_take, Nat.min_eq_left hi]

theorem length_le_splice (hoff : off ≤ l.length) :
    off + ents.length ≤ (splice l off ents k).length := by
  have := h.reach hoff
  rcases h.le.eq_or_lt with hk | hk
  · rwa [splice, if_pos hk, ← hk]
  · rw [splice_of_lt hk, List.length_append, List.length_take, List.length_drop]
    omega

theorem splice_wf (hl : LogWf l) (hoff : off ≤ l.length) (he : Consecutive off ents) :
    LogWf (splice l off ents k) := by
  have hreach := h.reach hoff
  rcases h.le.eq_or_lt with hk | hk
  · rwa [splice, if_pos hk]
  · rw [splice_of_lt hk]
    have hlen : (l.take (off + k)).length = off + k := by rw [List.length_take]; omega
    refine ⟨List.append_ne_nil_of_right_ne_nil _ (List.drop_eq_nil_iff.not.2 (by omega)),
      fun {i e} hi => ?_⟩
    rcases Nat.lt_or_ge i (off + k) with hlt | hge
    · rw [List.getElem?_append_left (by omega), List.getElem?_take_of_lt hlt] at hi
      exact hl.index hi
    · rw [List.getElem?_append_right (by omega), List.getElem?_drop] at hi
      rw [he hi]
      omega

/-- The log that is left has the new entries, and all others as far as they are in their place. -/
theorem appended (hoff : off ≤ l.length) : Appended l off ents (splice l off ents k) := by
  have hreach := h.reach hoff
  rcases h.le.eq_or_lt with hk | hk
  · subst hk
    rw [splice, if_pos rfl]
    refine ⟨h.held, fun _ _ => rfl, fun _ => rfl, ?_⟩
    rintro ⟨j, a, e, ha, he, hne⟩
    have hj : Held l off ents j := h.held (List.getElem?_eq_some_iff.1 he).1
    unfold Held at hj
    rw [ha, he] at hj
    exact absurd (Option.some.inj hj) hne
  · have hlen : (l.take (off + k)).length = off + k := by rw [List.length_take]; omega
    have hdrop : (splice l off ents k).drop (off + ents.length) = [] := by
      rw [splice_of_lt hk, List.drop_eq_nil_iff, List.length_append, hlen, List.length_drop]
      omega
    refine ⟨fun {j} hj => ?_, fun {i} hi hheld => h.splice_take hoff ?_, fun hno => ?_,
      fun _ => hdrop⟩
    · rcases Nat.lt_or_ge j k with hlt | hge
      · exact (held_of_take (h.splice_take hoff le_rfl) hlt).2 (h.held hlt)
      · unfold Held
        rw [splice_of_lt hk, List.getElem?_append_right (by omega), List.getElem?_drop, hlen,
          show k + (off + j - (off + k)) = j by omega]
    · by_contra hlt
      exact h.new hk (hheld k (by omega))
    · -- the log ends where the first new entry goes
      rw [hdrop]
      refine (List.drop_eq_nil_iff.2 ?_).symm
      by_contra hlt
      have hpos : off + k < l.length := by omega
      refine hno ⟨k, l[off + k], ents[k], List.getElem?_eq_getElem hpos,
        List.getElem?_eq_getElem hk, fun heq => h.new hk ?_⟩
      unfold Held
      rw [List.getElem?_eq_getElem hpos, List.getElem?_eq_getElem hk, Option.map_some,
        Option.map_some, heq]

end FirstNew

end Splice

/-! ## The answer to a request -/

namespace Raft

variable {r : Raft n C} {args : AppendEntiesArgs n C}

/-- `findConflict` returns the index of the first new entry, or 0. -/
theorem findConflict_spec (h : LogWf r.log) :
    ∀ (ents : List (Log C)) (off : ℕ), Consecutive off ents → ∃ k, FirstNew r.log off ents k ∧
      r.findConflict ents = .ok (if k = ents.length then 0 else off + k)
  | [], off, _ => ⟨0, ⟨le_rfl, by omega, by simp⟩, rfl⟩
  | e :: ents, off, he => by
    have hoff : e.index = off := he (j := 0) rfl
    by_cases hm : r.log[off]?.map Log.term = some e.term
    · have hstep : r.findConflict (e :: ents) = r.findConflict ents := by
        simp [findConflict, matchTerm_eq h, hoff, hm, bind, Except.bind]
      obtain ⟨k, hk, hk'⟩ := findConflict_spec h ents (off + 1) fun {j d} hd => by
        rw [he (j := j + 1) hd]
        omega
      refine ⟨k + 1, ⟨Nat.succ_le_succ hk.le, fun {j} hj => ?_, fun hlt => ?_⟩, ?_⟩
      · cases j with
        | zero => exact hm
        | succ j => exact held_succ.2 (hk.held (by omega))
      · rw [held_succ]
        exact hk.new (by simpa using hlt)
      · simp only [hstep, hk', List.length_cons, Nat.add_right_cancel_iff,
          show off + (k + 1) = off + 1 + k by omega]
    · refine ⟨0, ⟨Nat.zero_le _, by omega, fun _ => hm⟩, ?_⟩
      simp [findConflict, matchTerm_eq h, hoff, hm, bind, Except.bind, pure, Except.pure]

theorem appendFrom_eq (he : Consecutive (args.prevLogIndex + 1) args.entries)
    (hcom : r.commitIndex ≤ args.prevLogIndex) (hprev : args.prevLogIndex < r.log.length) {k : ℕ}
    (hk : FirstNew r.log (args.prevLogIndex + 1) args.entries k) :
    r.appendFrom args (if k = args.entries.length then 0 else args.prevLogIndex + 1 + k) =
      .ok { r with log := splice r.log (args.prevLogIndex + 1) args.entries k } := by
  have hreach := hk.reach hprev
  rcases hk.le.eq_or_lt with hall | hlt
  · rw [if_pos hall, splice, if_pos hall]
    rfl
  · obtain ⟨e, es, hes⟩ := List.exists_cons_of_ne_nil
      (List.drop_eq_nil_iff.not.2 (Nat.not_le.2 hlt))
    have hidx : e.index = args.prevLogIndex + 1 + k := by
      refine he ?_
      have : (args.entries.drop k)[0]? = some e := by rw [hes]; rfl
      rwa [List.getElem?_drop] at this
    rw [if_neg hlt.ne, splice_of_lt hlt, appendFrom, if_neg (by omega), if_neg (by omega),
      if_neg (by omega), Nat.add_sub_cancel_left, hes, appendLog, hidx, if_neg (by omega),
      if_neg (by omega)]

/-- The follower has heard from the leader. -/
def heard (r : Raft n C) (leader : Fin n) : Raft n C :=
  { r with electionElapsed := 0, lead := some leader }

/-- The follower after a request that it takes, `k` of whose entries it had. -/
def taken (r : Raft n C) (args : AppendEntiesArgs n C) (k : ℕ) : Raft n C :=
  { r with
    electionElapsed := 0
    lead := some args.leaderId
    log := splice r.log (args.prevLogIndex + 1) args.entries k
    commitIndex := max r.commitIndex args.leaderCommit
    commitc := if r.commitIndex < args.leaderCommit then some args.leaderCommit else r.commitc }

/-- The answer to a request whose previous entry is not here. -/
def rejection (r : Raft n C) (args : AppendEntiesArgs n C) : AppendEntiesReply where
  term := r.currentTerm
  success := false
  nextIndex := max 1 (min (r.commitIndex + 1) (args.prevLogIndex - 1))
  followerCommitIndex := r.commitIndex
  conflictTerm := match r.log[args.prevLogIndex]? with
    | some e => e.term
    | none => -1
  conflictIndex := if args.prevLogIndex < r.log.length then 0 else -1

theorem prev_lt_of_match (hp : r.log[args.prevLogIndex]?.map Log.term = some args.prevLogTerm) :
    args.prevLogIndex < r.log.length := by
  obtain ⟨a, ha, -⟩ := Option.map_eq_some_iff.1 hp
  exact (List.getElem?_eq_some_iff.1 ha).1

theorem handleAppendEntries_unordered (h : LogWf r.log) (hcom : r.commitIndex < r.log.length)
    (hun : args.prevLogIndex < r.commitIndex) :
    r.handleAppendEntries args = .ok (r.heard args.leaderId, r.appendUnordered) := by
  simp only [handleAppendEntries, if_pos hun]
  exact checkNextIndex_ok (by exact h) (by simp only [appendUnordered]; omega)

theorem handleAppendEntries_ordered (h : LogWf r.log) (hun : ¬ args.prevLogIndex < r.commitIndex) :
    r.handleAppendEntries args =
      (if r.log[args.prevLogIndex]?.map Log.term = some args.prevLogTerm
        then (r.heard args.leaderId).appendMatched args
        else (r.heard args.leaderId).appendMismatched args) >>= fun x =>
      if x.2.nextIndex < 1 then .error ⟨x.1, "reply.NextIndex < 1", false⟩
      else x.1.checkNextIndex x.2 := by
  simp only [handleAppendEntries, if_neg hun]
  rw [matchTerm_eq (by exact h)]
  by_cases hp : r.log[args.prevLogIndex]?.map Log.term = some args.prevLogTerm
  · simp only [hp, decide_true, bind, Except.bind, if_true]
    rfl
  · simp only [hp, decide_false, bind, Except.bind, if_false, Bool.false_eq_true]
    rfl

/-- A request is taken from the first new entry on. -/
theorem handleAppendEntries_taken (h : LogWf r.log)
    (he : Consecutive (args.prevLogIndex + 1) args.entries)
    (hlc : args.leaderCommit ≤ args.prevLogIndex + args.entries.length)
    (hun : ¬ args.prevLogIndex < r.commitIndex)
    (hp : r.log[args.prevLogIndex]?.map Log.term = some args.prevLogTerm) :
    ∃ k, FirstNew r.log (args.prevLogIndex + 1) args.entries k ∧
      r.handleAppendEntries args = .ok (r.taken args k,
        { term := r.currentTerm, success := true
          nextIndex := args.prevLogIndex + args.entries.length + 1
          followerCommitIndex := max r.commitIndex args.leaderCommit }) := by
  have hprev := prev_lt_of_match hp
  obtain ⟨k, hk, hfind⟩ := findConflict_spec (r := r.heard args.leaderId) h args.entries
    (args.prevLogIndex + 1) he
  have hwf := hk.splice_wf h hprev he
  have hlen : args.prevLogIndex + 1 + args.entries.length ≤ (r.taken args k).log.length :=
    hk.length_le_splice hprev
  refine ⟨k, hk, ?_⟩
  have hmatched : (r.heard args.leaderId).appendMatched args = .ok (r.taken args k,
      { term := r.currentTerm, success := true
        nextIndex := args.prevLogIndex + args.entries.length + 1
        followerCommitIndex := max r.commitIndex args.leaderCommit }) := by
    unfold appendMatched
    simp only [hfind, appendFrom_eq (r := r.heard args.leaderId) he (Nat.not_lt.1 hun) hprev hk,
      bind, Except.bind]
    have hlt : args.leaderCommit < (r.taken args k).log.length := by omega
    rw [checkLog_ok (by exact hwf), commitLeader_eq (by exact hwf) (by exact hlt)]
    rfl
  rw [handleAppendEntries_ordered h hun, if_pos hp, hmatched]
  exact checkNextIndex_ok (by exact hwf)
    (show args.prevLogIndex + args.entries.length + 1 ≤ (r.taken args k).log.length by omega)

theorem handleAppendEntries_mismatched (h : LogWf r.log) (hcom : r.commitIndex < r.log.length)
    (hun : ¬ args.prevLogIndex < r.commitIndex)
    (hp : r.log[args.prevLogIndex]?.map Log.term ≠ some args.prevLogTerm) :
    r.handleAppendEntries args = .ok (r.heard args.leaderId, r.rejection args) := by
  have hlast : (r.heard args.leaderId).lastIndex + 1 = r.log.length := lastIndex_eq h
  have hconflict : (r.heard args.leaderId).conflictAt args.prevLogIndex =
      .ok ((r.rejection args).conflictTerm, (r.rejection args).conflictIndex) := by
    unfold conflictAt rejection
    by_cases hlt : args.prevLogIndex < r.log.length
    · rw [if_pos (by omega),
        entry_of_getElem? (r := r.heard args.leaderId) (List.getElem?_eq_getElem hlt)]
      simp [hlt, bind, Except.bind, pure, Except.pure]
    · rw [if_neg (by omega)]
      simp [hlt, pure, Except.pure]
  have hnext : (if min ((r.commitIndex : ℤ) + 1) ((args.prevLogIndex : ℤ) - 1) < 1 then 1
      else (min ((r.commitIndex : ℤ) + 1) ((args.prevLogIndex : ℤ) - 1)).toNat) =
        (r.rejection args).nextIndex := by
    simp only [rejection]
    split_ifs <;> omega
  have hmismatched : (r.heard args.leaderId).appendMismatched args =
      .ok (r.heard args.leaderId, r.rejection args) := by
    unfold appendMismatched
    rw [hconflict]
    exact congrArg (fun i => Except.ok (r.heard args.leaderId, { r.rejection args with
      nextIndex := i })) hnext
  have hpos : 1 ≤ (r.rejection args).nextIndex := le_max_left _ _
  have hle : (r.rejection args).nextIndex ≤ r.log.length := by
    simp only [rejection]
    omega
  rw [handleAppendEntries_ordered h hun, if_neg hp, hmismatched]
  exact (if_neg (Nat.not_lt.2 hpos)).trans (checkNextIndex_ok (by exact h) hle)

/-- The follower takes the request: it is from what is committed on, and the previous entry is
here. -/
def Takes (r : Raft n C) (args : AppendEntiesArgs n C) : Prop :=
  r.commitIndex ≤ args.prevLogIndex ∧
    r.log[args.prevLogIndex]?.map Log.term = some args.prevLogTerm

/-- A request that is not taken leaves the log and the commit index alone. -/
theorem handleAppendEntries_cases (h : LogWf r.log) (hcom : r.commitIndex < r.log.length)
    (he : Consecutive (args.prevLogIndex + 1) args.entries)
    (hlc : args.leaderCommit ≤ args.prevLogIndex + args.entries.length) :
    (r.Takes args ∧ ∃ k reply, FirstNew r.log (args.prevLogIndex + 1) args.entries k ∧
      r.handleAppendEntries args = .ok (r.taken args k, reply) ∧ reply.success = true ∧
      reply.nextIndex = args.prevLogIndex + args.entries.length + 1) ∨
    (¬ r.Takes args ∧ ∃ reply, r.handleAppendEntries args = .ok (r.heard args.leaderId, reply) ∧
      1 ≤ reply.nextIndex ∧ reply.nextIndex ≤ r.log.length) := by
  by_cases hun : args.prevLogIndex < r.commitIndex
  · refine .inr ⟨fun ht => ?_, _, handleAppendEntries_unordered h hcom hun, ?_, ?_⟩
    · exact absurd ht.1 (Nat.not_le.2 hun)
    · exact Nat.succ_pos _
    · exact hcom
  by_cases hp : r.log[args.prevLogIndex]?.map Log.term = some args.prevLogTerm
  · obtain ⟨k, hk, heq⟩ := handleAppendEntries_taken h he hlc hun hp
    exact .inl ⟨⟨Nat.not_lt.1 hun, hp⟩, k, _, hk, heq, rfl, rfl⟩
  · refine .inr ⟨fun ht => hp ht.2, _, handleAppendEntries_mismatched h hcom hun hp, ?_, ?_⟩
    · exact le_max_left _ _
    · simp only [rejection]
      omega

/-- A request that a follower has just handled changes its log and its commit index no more. -/
theorem handleAppendEntries_again (h : LogWf r.log) (hcom : r.commitIndex < r.log.length)
    (he : Consecutive (args.prevLogIndex + 1) args.entries)
    (hlc : args.leaderCommit ≤ args.prevLogIndex + args.entries.length)
    (hheld : r.Takes args → args.leaderCommit ≤ r.commitIndex ∧
      ∀ j < args.entries.length, Held r.log (args.prevLogIndex + 1) args.entries j) :
    ∃ r' reply, r.handleAppendEntries args = .ok (r', reply) ∧ r'.log = r.log ∧
      r'.commitIndex = r.commitIndex := by
  rcases handleAppendEntries_cases h hcom he hlc with
    ⟨ht, k, reply, hk, heq, -⟩ | ⟨-, reply, heq, -⟩
  · obtain ⟨hc, hall⟩ := hheld ht
    have hlen : k = args.entries.length := by
      by_contra hne
      have hlt := lt_of_le_of_ne hk.le hne
      exact hk.new hlt (hall k hlt)
    exact ⟨_, reply, heq, if_pos hlen, max_eq_left hc⟩
  · exact ⟨_, reply, heq, rfl, rfl⟩

/-- What a follower makes of a request with entries in their places: it does not panic, what is
committed stays, and a request that it does not take changes nothing; handling the request once more
changes nothing either. -/
theorem handleAppendEntries_correct (r : Raft n C) (args : AppendEntiesArgs n C) (h : LogWf r.log)
    (hcom : r.commitIndex ≤ r.lastIndex) (he : Consecutive (args.prevLogIndex + 1) args.entries)
    (hlc : args.leaderCommit ≤ args.prevLogIndex + args.entries.length) :
    ∃ r' reply, r.handleAppendEntries args = .ok (r', reply) ∧
      r'.log.take (r.commitIndex + 1) = r.log.take (r.commitIndex + 1) ∧
      (r.Takes args → Appended r.log (args.prevLogIndex + 1) args.entries r'.log ∧
        r'.commitIndex = max r.commitIndex args.leaderCommit ∧ reply.success = true ∧
        reply.nextIndex = args.prevLogIndex + args.entries.length + 1) ∧
      (¬ r.Takes args → r'.log = r.log ∧ r'.commitIndex = r.commitIndex ∧
        1 ≤ reply.nextIndex ∧ reply.nextIndex ≤ r.lastIndex + 1) ∧
      ∃ r'' reply', r'.handleAppendEntries args = .ok (r'', reply') ∧ r''.log = r'.log ∧
        r''.commitIndex = r'.commitIndex := by
  have hlast := lastIndex_eq h
  have hcom' : r.commitIndex < r.log.length := by omega
  rcases handleAppendEntries_cases h hcom' he hlc with
    ⟨ht, k, reply, hk, heq, hs, hn⟩ | ⟨ht, reply, heq, h1, h2⟩
  · have hprev := prev_lt_of_match ht.2
    have happ := hk.appended hprev
    have hlen : args.prevLogIndex + 1 + args.entries.length ≤ (r.taken args k).log.length :=
      hk.length_le_splice hprev
    refine ⟨_, reply, heq, hk.splice_take hprev (by have := ht.1; omega),
      fun _ => ⟨happ, rfl, hs, hn⟩, fun hno => absurd ht hno, ?_⟩
    refine handleAppendEntries_again (hk.splice_wf h hprev he) ?_ he hlc fun _ =>
      ⟨le_max_right _ _, fun j hj => happ.held hj⟩
    exact max_lt (by have := ht.1; omega) (by omega)
  · refine ⟨_, reply, heq, rfl, fun hyes => absurd hyes ht,
      fun _ => ⟨rfl, rfl, h1, by rw [hlast]; exact h2⟩, ?_⟩
    exact handleAppendEntries_again h hcom' he hlc fun hyes => absurd hyes ht

/-- A follower with two entries that are not committed. -/
def uncommitted : Raft 2 ℕ :=
  { Raft.zero ⟨0, Nat.two_pos⟩ none with
    currentTerm := 2
    log := [sentinel, ⟨1, some 5, 1⟩, ⟨1, some 6, 2⟩, ⟨1, some 7, 3⟩]
    commitIndex := 1 }

/-- A later leader has another entry in the place of the first of them. -/
def overwrite : AppendEntiesArgs 2 ℕ := ⟨2, ⟨1, Nat.one_lt_two⟩, 2, 1, 1, [⟨2, some 8, 2⟩]⟩

theorem handleAppendEntries_overwrite :
    uncommitted.Takes overwrite ∧ Conflicts uncommitted.log 2 overwrite.entries ∧
      ∃ r' reply, uncommitted.handleAppendEntries overwrite = .ok (r', reply) ∧
        r'.log.take 2 = uncommitted.log.take 2 ∧ r'.log.drop 3 = [] ∧ r'.commitIndex = 2 ∧
        reply.nextIndex = 3 := by
  have ht : uncommitted.Takes overwrite := ⟨le_rfl, rfl⟩
  have hc : Conflicts uncommitted.log 2 overwrite.entries :=
    ⟨0, ⟨1, some 6, 2⟩, ⟨2, some 8, 2⟩, rfl, rfl, by decide⟩
  obtain ⟨r', reply, heq, hkept, htaken, -⟩ := handleAppendEntries_correct uncommitted overwrite
    (.of_map_index (by decide) rfl) (by decide)
    (fun {j e} hj => by
      obtain ⟨rfl, rfl⟩ : j = 0 ∧ e = ⟨2, some 8, 2⟩ := by
        cases j with
        | zero => exact ⟨rfl, (Option.some.inj hj).symm⟩
        | succ j => cases hj
      rfl)
    (by decide)
  obtain ⟨happ, hcommit, -, hnext⟩ := htaken ht
  exact ⟨ht, hc, r', reply, heq, hkept, happ.cut hc, hcommit, hnext⟩

end Raft

/-! ## Requests from a leader's log -/

/-- The arguments are what a leader with log `L` and commit index `c` sends. -/
structure FromLeader (args : AppendEntiesArgs n C) (L : List (Log C)) (c : ℕ) : Prop where
  prev : L[args.prevLogIndex]?.map Log.term = some args.prevLogTerm
  entries : args.entries = L.drop (args.prevLogIndex + 1)
  commit : args.leaderCommit = c

theorem LogWf.merge {L l : List (Log C)} (hL : LogWf L) (hl : LogWf l) : LogWf (merge L l) := by
  rcases Replog.merge_eq L l with ⟨hme, -⟩ | ⟨hme, -⟩ <;> rw [hme] <;> assumption

theorem FromLeader.prev_lt {args : AppendEntiesArgs n C} {L : List (Log C)} {c : ℕ}
    (h : FromLeader args L c) : args.prevLogIndex < L.length := by
  by_contra hlt
  have := h.prev
  rw [List.getElem?_eq_none (by omega)] at this
  simp at this

/-- Entries of one term at one place make the logs agree up to there. -/
def Matching (l L : List (Log C)) : Prop :=
  ∀ {i : ℕ} {a b : Log C}, l[i]? = some a → L[i]? = some b → a.term = b.term →
    l.take (i + 1) = L.take (i + 1)

section FromLeader

variable {args : AppendEntiesArgs n C} {l L : List (Log C)} {c : ℕ}

theorem FromLeader.length_entries (h : FromLeader args L c) :
    args.prevLogIndex + args.entries.length + 1 = L.length := by
  have := h.prev_lt
  rw [h.entries, List.length_drop]
  omega

theorem FromLeader.consecutive (h : FromLeader args L c) (hL : LogWf L) :
    Consecutive (args.prevLogIndex + 1) args.entries := by
  intro j e he
  rw [h.entries, List.getElem?_drop] at he
  exact hL.index he

/-- Equal terms at a place of the leader's log make the logs agree up to there. -/
theorem Matching.take_eq (hm : Matching l L) {i : ℕ} (hi : i < L.length)
    (heq : l[i]?.map Log.term = L[i]?.map Log.term) : l.take (i + 1) = L.take (i + 1) := by
  rw [List.getElem?_eq_getElem hi] at heq
  obtain ⟨a, ha, hat⟩ := Option.map_eq_some_iff.1 heq
  exact hm ha (List.getElem?_eq_getElem hi) hat

/-- The held entries are the leader's, and what is before them is. -/
theorem FirstNew.take_eq {k : ℕ} (hk : FirstNew l (args.prevLogIndex + 1) args.entries k)
    (hm : Matching l L) (ha : FromLeader args L c)
    (hp : l[args.prevLogIndex]?.map Log.term = some args.prevLogTerm) :
    l.take (args.prevLogIndex + 1 + k) = L.take (args.prevLogIndex + 1 + k) := by
  have hlen := ha.length_entries
  cases k with
  | zero => exact hm.take_eq ha.prev_lt (hp.trans ha.prev.symm)
  | succ k =>
    have hle := hk.le
    have hheld : Held l (args.prevLogIndex + 1) args.entries k := hk.held k.lt_succ_self
    unfold Held at hheld
    rw [ha.entries, List.getElem?_drop] at hheld
    have hi : args.prevLogIndex + 1 + k < L.length := by omega
    exact hm.take_eq hi hheld

/-- With all of a leader's log behind the previous entry, a follower ends with that log, or keeps a
log that extends it. -/
theorem FirstNew.splice_eq_merge {k : ℕ} (hk : FirstNew l (args.prevLogIndex + 1) args.entries k)
    (hm : Matching l L) (ha : FromLeader args L c)
    (hp : l[args.prevLogIndex]?.map Log.term = some args.prevLogTerm) :
    splice l (args.prevLogIndex + 1) args.entries k = merge L l := by
  have htake := hk.take_eq hm ha hp
  have hlen := ha.length_entries
  rcases hk.le.eq_or_lt with heq | hlt
  · have hall : args.prevLogIndex + 1 + k = L.length := by omega
    rw [hall, List.take_length] at htake
    have hpre : L <+: l := htake ▸ List.take_prefix _ _
    rw [splice, if_pos heq]
    rcases Replog.merge_eq L l with ⟨hme, -⟩ | ⟨-, hn⟩
    · rw [hme]
    · exact absurd hpre hn
  · rw [splice_of_lt hlt, htake, ha.entries, List.drop_drop, List.take_append_drop]
    rcases Replog.merge_eq L l with ⟨-, hpre⟩ | ⟨hme, -⟩
    · -- the log would hold the first new entry
      refine absurd ?_ (hk.new hlt)
      have hpos : args.prevLogIndex + 1 + k < L.length := by omega
      unfold Held
      rw [ha.entries, List.getElem?_drop, List.getElem?_eq_getElem hpos,
        Replog.getElem?_of_isPrefix hpre (List.getElem?_eq_getElem hpos)]
    · exact hme.symm

end FromLeader

namespace Raft

variable {r : Raft n C} {args : AppendEntiesArgs n C} {L : List (Log C)} {c : ℕ}

theorem handleAppendEntries_matched (h : LogWf r.log) (hL : LogWf L) (hm : Matching r.log L)
    (ha : FromLeader args L c) (hc : c < L.length) (hun : ¬ args.prevLogIndex < r.commitIndex)
    (hp : r.log[args.prevLogIndex]?.map Log.term = some args.prevLogTerm) :
    r.handleAppendEntries args = .ok
      ({ r with
          electionElapsed := 0
          lead := some args.leaderId
          log := merge L r.log
          commitIndex := max r.commitIndex c
          commitc := if r.commitIndex < c then some c else r.commitc },
        { term := r.currentTerm, success := true, nextIndex := L.length,
          followerCommitIndex := max r.commitIndex c }) := by
  have hlen := ha.length_entries
  obtain ⟨k, hk, heq⟩ := handleAppendEntries_taken h (ha.consecutive hL)
    (by rw [ha.commit]; omega) hun hp
  rw [heq, hlen, taken, hk.splice_eq_merge hm ha hp, ha.commit]

/-- A follower's answer to a leader's request, and what the request leaves. -/
theorem handleAppendEntries_spec (h : LogWf r.log) (hL : LogWf L) (hm : Matching r.log L)
    (ha : FromLeader args L c) (hc : c < L.length) (hcom : r.commitIndex < r.log.length) :
    ∃ reply log commitIndex commitc, r.handleAppendEntries args = .ok
        ({ r with electionElapsed := 0, lead := some args.leaderId, log := log,
                  commitIndex := commitIndex, commitc := commitc }, reply) ∧
      reply.term = r.currentTerm ∧ 1 ≤ reply.nextIndex ∧ reply.conflictIndex ≤ 0 ∧
      ((reply.success = true ∧ reply.nextIndex = r.commitIndex + 1 ∧ log = r.log ∧
          commitIndex = r.commitIndex ∧ commitc = r.commitc) ∨
        (reply.success = true ∧ reply.nextIndex = L.length ∧ log = merge L r.log ∧
          commitIndex = max r.commitIndex c ∧
          commitc = if r.commitIndex < c then some c else r.commitc) ∨
        (reply.success = false ∧ reply.nextIndex ≤ max 1 (args.prevLogIndex - 1) ∧ log = r.log ∧
          commitIndex = r.commitIndex ∧ commitc = r.commitc)) := by
  by_cases hun : args.prevLogIndex < r.commitIndex
  · exact ⟨_, _, _, _, handleAppendEntries_unordered h hcom hun, rfl,
      by simp [appendUnordered], le_rfl, .inl ⟨rfl, rfl, rfl, rfl, rfl⟩⟩
  · by_cases hp : r.log[args.prevLogIndex]?.map Log.term = some args.prevLogTerm
    · exact ⟨_, _, _, _, handleAppendEntries_matched h hL hm ha hc hun hp, rfl,
        List.length_pos_iff.2 hL.ne, le_rfl, .inr (.inl ⟨rfl, rfl, rfl, rfl, rfl⟩)⟩
    · refine ⟨_, _, _, _, handleAppendEntries_mismatched h hcom hun hp, rfl, ?_, ?_,
        .inr (.inr ⟨rfl, ?_, rfl, rfl, rfl⟩)⟩
      · exact le_max_left _ _
      · simp only [rejection]
        split_ifs <;> decide
      · simp only [rejection]
        omega

end Raft

end DistSystem
