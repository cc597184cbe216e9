import DistSystem.Proofs.RaftStale

/-!
# What a candidate has recorded

In a run without misread answers, what a candidate has recorded from another server is that
server's answer in this term. A request is sent once, and the network duplicates nothing, so it or
its answer is in flight at most once; a recorded refusal then means that no vote was cast
(`VoteInv`).
-/

namespace DistSystem

open Replog (CandidateAt Run)

variable {n : ℕ} {C : Type}

/-! ## Ballots -/

/-- Server `p` moves, and what was kept of the network is followed by what `p` sent. -/
structure NetStep (s s' : Cluster n C) (p : Fin n) (kept : List (Packet n C))
    (msgs : List (Message n C)) : Prop where
  others : ∀ q, q ≠ p → (s'.nodes q).raft = (s.nodes q).raft
  net : ∃ i, s'.net = kept ++ msgs.map (⟨·, i⟩)

/-- What an action does to the votes and to the messages that carry them. -/
inductive BallotStep (s s' : Cluster n C) : Prop
  | keep {p : Fin n} {kept : List (Packet n C)} {msgs : List (Message n C)}
      (h : NetStep s s' p kept msgs) (hsub : kept.Sublist s.net)
      (hk : Keeps (s.nodes p).raft (s'.nodes p).raft) (hm : ∀ m ∈ msgs, m.ballot = none)
  | campaign {p : Fin n} {args : RequestVoteArgs n}
      (h : NetStep s s' p s.net ((s.nodes p).raft.peers.map (.msgVote · args)))
      (hme : (s.nodes p).raft.me = p) (hid : args.candidateId = p)
      (hT : args.term = (s.nodes p).raft.currentTerm + 1)
      (hT' : (s'.nodes p).raft.currentTerm = (s.nodes p).raft.currentTerm + 1)
      (hv : (s'.nodes p).raft.votedFor = some p)
      (hvotes : ∀ q b, (s'.nodes p).raft.votes q = some b → q = p)
  | answer {p : Fin n} {k : ℕ} {pk : Packet n C} {args : RequestVoteArgs n}
      {reply : RequestVoteReply} (hpk : s.net[k]? = some pk) (hmsg : pk.msg = .msgVote p args)
      (h : NetStep s s' p (s.net.eraseIdx k) [.msgVoteResp p args.candidateId args reply])
      (hv : (reply.voteGranted = true ∧ (s'.nodes p).raft.votedFor = some args.candidateId ∧
          (s'.nodes p).raft.currentTerm = args.term ∧
          (s'.nodes p).raft.state = .stateFollower) ∨
        (reply.voteGranted = false ∧ Keeps (s.nodes p).raft (s'.nodes p).raft))
  | record {p src : Fin n} {k : ℕ} {pk : Packet n C} {args : RequestVoteArgs n}
      {reply : RequestVoteReply} {msgs : List (Message n C)} (hpk : s.net[k]? = some pk)
      (hmsg : pk.msg = .msgVoteResp src p args reply)
      (h : NetStep s s' p (s.net.eraseIdx k) msgs) (hm : ∀ m ∈ msgs, m.ballot = none)
      (hs : (s.nodes p).raft.state = .stateCandidate)
      (hT : args.term = (s.nodes p).raft.currentTerm)
      (hT' : (s'.nodes p).raft.currentTerm = (s.nodes p).raft.currentTerm)
      (hv : (s'.nodes p).raft.votedFor = (s.nodes p).raft.votedFor)
      (hvotes : (s'.nodes p).raft.votes = (s.nodes p).raft.pollVotes src reply.voteGranted)

section Exec

variable {τ : History n C} {t : ℕ} {s : Cluster n C} {p : Fin n} {r : Raft n C}
  {msgs : List (Message n C)}

theorem NetStep.finish (s : Cluster n C) (p : Fin n) (i : ℕ) (r : Raft n C)
    (msgs : List (Message n C)) :
    NetStep s (s.finish p i (.ok (r, msgs))) p s.net msgs ∧
      ((s.finish p i (.ok (r, msgs))).nodes p).raft = r := by
  refine ⟨⟨fun q hq => ?_, i, rfl⟩, ?_⟩
  · simp [Cluster.finish, Cluster.send, Cluster.setNode, Function.update_of_ne hq]
  · simp [Cluster.finish, Cluster.send, Cluster.setNode]

theorem NetStep.setNode (s : Cluster n C) (p : Fin n) (x : Node n C) :
    NetStep s (s.setNode p x) p s.net [] ∧ ((s.setNode p x).nodes p).raft = x.raft := by
  refine ⟨⟨fun q hq => ?_, 0, ?_⟩, ?_⟩
  · simp [Cluster.setNode, Function.update_of_ne hq]
  · simp [Cluster.setNode]
  · simp [Cluster.setNode]

/-- A message that is not misread does to the votes what it should. -/
theorem deliver_ballot {s' : Cluster n C} (h : ClusterOk τ t s) {k : ℕ} {m : Message n C} {i : ℕ}
    (hpk : s.net[k]? = some ⟨m, i⟩) {rnd : ℕ} (hno : ¬ Misread (s.nodes m.dst).raft m)
    (hstep : (s.nodes m.dst).raft.step rnd m = .ok ((s'.nodes m.dst).raft, msgs))
    (hnet : NetStep s s' m.dst (s.net.eraseIdx k) msgs) : BallotStep s s' := by
  have hme := (h.ok m.dst).me
  have hmok := h.net _ (List.mem_of_getElem? hpk)
  cases m with
  | msgVote dst args =>
    obtain ⟨reply, rfl, hv⟩ := Raft.step_request hstep
    rw [hme] at hnet
    exact .answer hpk rfl hnet hv
  | msgVoteResp src dst args reply =>
    obtain ⟨hm, hk | ⟨hs, hT, hT', hv, hvotes⟩⟩ := Raft.step_answer hstep
    · exact .keep hnet (List.eraseIdx_sublist _ _) hk hm
    · by_cases hnone : (s.nodes dst).raft.votes src = none
      · -- it was asked for in this term, since it is not an old one
        have hle : args.term ≤ (s.nodes dst).raft.currentTerm := by
          obtain ⟨hd, ⟨u, hu, hc, -⟩, -⟩ := hmok
          have hmono := h.run.term_mono hu le_rfl args.candidateId
          rw [hc.2, ← hd, h.abs] at hmono
          exact hmono
        have hargs : args.term = (s.nodes dst).raft.currentTerm := by
          by_contra hne
          exact hno ⟨lt_of_le_of_ne hle hne, hT, hs, hnone⟩
        exact .record hpk rfl hnet hm hs hargs hT' hv hvotes
      · have hsame := hvotes.trans (Raft.pollVotes_of_some _ hnone)
        refine .keep hnet (List.eraseIdx_sublist _ _) ?_ hm
        exact ⟨fun c hc => ⟨hv.symm.trans hc, hT'⟩, fun _ => ⟨hs, hT', hsame⟩⟩
  | msgApp dst args =>
    obtain ⟨hm, hk⟩ := Raft.step_append rfl hstep
    exact .keep hnet (List.eraseIdx_sublist _ _) hk hm
  | msgAppResp src dst args reply =>
    obtain ⟨hm, hk⟩ := Raft.step_append rfl hstep
    exact .keep hnet (List.eraseIdx_sublist _ _) hk hm

/-- In a run without misread answers every action does to the votes what it should. -/
theorem ClusterStep.ballot {s' : Cluster n C} {a : Action n C} (hst : ClusterStep s a s')
    (h2 : 2 ≤ n) (h : ClusterOk τ t s)
    (hno : ∀ k rnd pk, a = .deliver k rnd → s.net[k]? = some pk → s.CanDeliver pk →
      ¬ Misread (s.nodes pk.msg.dst).raft pk.msg ∧
        ∃ x, (s.nodes pk.msg.dst).raft.step rnd pk.msg = .ok x) :
    BallotStep s s' := by
  have hid : ∀ {s' : Cluster n C}, s'.nodes = s.nodes → s'.net.Sublist s.net →
      BallotStep s s' := by
    intro s' hnodes hsub
    have hnet : NetStep s s' ⟨0, by omega⟩ s'.net [] := ⟨fun q _ => by rw [hnodes], 0, by simp⟩
    refine .keep hnet hsub ?_ (by simp)
    rw [hnodes]
    exact (SameVotes.refl _).keeps
  have hkeep : ∀ {s' : Cluster n C} {p : Fin n} {r : Raft n C} {msgs : List (Message n C)},
      NetStep s s' p s.net msgs ∧ (s'.nodes p).raft = r → Keeps (s.nodes p).raft r →
      (∀ m ∈ msgs, m.ballot = none) → BallotStep s s' := by
    rintro s' p r msgs ⟨hnet, rfl⟩ hk hm
    exact .keep hnet (List.Sublist.refl _) hk hm
  cases hst with
  | same => exact hid rfl (List.Sublist.refl _)
  | @tick p rnd =>
    obtain ⟨r, msgs, heq, -, -⟩ := tick_handled (h.abs p) (h.ok p) h2 rnd
    have hme := (h.ok p).me
    rw [heq]
    rcases Raft.tick_votes h2 (h.ok p).wf heq with ⟨hm, hk⟩ |
        ⟨args, hid, hT, rfl, hT', hv, hvotes⟩
    · exact hkeep (NetStep.finish _ _ _ _ _) hk hm
    · obtain ⟨hnet, hself⟩ := NetStep.finish s p (s.nodes p).incarnation r _
      rw [hme] at hid hv hvotes
      exact .campaign hnet hme hid hT (by rw [hself]; exact hT') (by rw [hself]; exact hv)
        (by rw [hself]; exact hvotes)
  | @deliver k rnd pk hk hd =>
    obtain ⟨hmis, ⟨r, msgs⟩, heq⟩ := hno k rnd pk rfl hk hd
    obtain ⟨hnet, hself⟩ := NetStep.finish { s with net := s.net.eraseIdx k } pk.msg.dst
      pk.incarnation r msgs
    rw [heq]
    exact deliver_ballot h hk hmis (by rw [hself]; exact heq) ⟨hnet.others, hnet.net⟩
  | drop => exact hid rfl (List.eraseIdx_sublist _ _)
  | @start p command =>
    obtain ⟨r, msgs, reply, heq, -, -⟩ := handleStart_handled (h.abs p) (h.ok p) command
    obtain ⟨hm, hk⟩ := Raft.handleStart_votes heq
    rw [heq]
    exact hkeep (NetStep.finish _ _ _ _ _) hk hm
  | @stateMachine p =>
    obtain ⟨r, heq, -⟩ := stateMachine_handled h.run (h.abs p) (h.ok p)
    have hk := Raft.stateMachine_votes heq
    rw [heq]
    exact hkeep (NetStep.finish _ _ _ _ _) hk (by simp)
  | crash => exact hkeep (NetStep.setNode _ _ _) (SameVotes.refl _).keeps (by simp)
  | @restart p rnd =>
    exact hkeep (NetStep.setNode _ _ _) (Raft.make_votes (h.durable p) p rnd) (by simp)

end Exec

/-! ## One vote a request -/

theorem countP_eraseIdx {α : Type} (f : α → Bool) :
    ∀ (l : List α) (k : ℕ) {a : α}, l[k]? = some a →
      l.countP f = (l.eraseIdx k).countP f + if f a then 1 else 0
  | [], k, a, h => by simp at h
  | b :: l, 0, a, h => by
    simp only [List.getElem?_cons_zero, Option.some.injEq] at h
    subst h
    rw [List.countP_cons, List.eraseIdx_cons_zero]
  | b :: l, k + 1, a, h => by
    have ih := countP_eraseIdx f l k (a := a) (by simpa using h)
    rw [List.countP_cons, List.eraseIdx_cons_succ, List.countP_cons, ih]
    omega

/-- A response that brings a vote. -/
def Message.granted : Message n C → Bool
  | .msgVoteResp _ _ _ reply => reply.voteGranted
  | _ => false

/-- How many messages are in flight that ask `q` for a vote for `c` in term `T`, or bring its
answer. -/
def Cluster.ballots (s : Cluster n C) (c q : Fin n) (T : ℕ) : ℕ :=
  s.net.countP fun pk => pk.msg.ballot = some (c, q, T)

/-- `q` has voted for `c` in term `T`. -/
def Voted (τ : History n C) (t : ℕ) (q c : Fin n) (T : ℕ) : Prop :=
  ∃ u ≤ t, (τ u q).term = T ∧ (τ u q).vote = some c

namespace Schedule

variable (σ : Schedule n C)

/-- `q` has answered `b` to the request of `p` for a vote in term `T`. -/
def Answered (t : ℕ) (q p : Fin n) (T : ℕ) (b : Bool) : Prop :=
  ∃ u ≤ t, ∃ pk ∈ (σ.run u).net, ∃ args reply, pk.msg = .msgVoteResp q p args reply ∧
    args.term = T ∧ reply.voteGranted = b

/-- What `p` has recorded from `q` in term `T`, with no vote cast if it is a refusal. -/
def Recorded (t : ℕ) (p q : Fin n) (T : ℕ) (b : Bool) : Prop :=
  σ.Answered t q p T b ∧
    (b = false → (σ.run t).ballots p q T = 0 ∧ ¬ Voted σ.history t q p T)

/-- A request or its answer is in flight at most once, without a vote cast unless it is granted;
and what a candidate has recorded was answered. -/
structure VoteInv (t : ℕ) : Prop where
  once : ∀ c q T, (σ.run t).ballots c q T ≤ 1
  term_le : ∀ pk ∈ (σ.run t).net, ∀ {c q T}, pk.msg.ballot = some (c, q, T) →
    T ≤ (σ.raft t c).currentTerm
  unvoted : ∀ pk ∈ (σ.run t).net, ∀ {c q T}, pk.msg.ballot = some (c, q, T) →
    pk.msg.granted = false → ¬ Voted σ.history t q c T
  recorded : ∀ {p q b}, (σ.raft t p).state = .stateCandidate → q ≠ p →
    (σ.raft t p).votes q = some b → σ.Recorded t p q (σ.raft t p).currentTerm b

variable {σ} {t : ℕ} {p : Fin n} {kept : List (Packet n C)} {msgs : List (Message n C)}

theorem voted_succ (h : NetStep (σ.run t) (σ.run (t + 1)) p kept msgs) {q c : Fin n} {T : ℕ}
    (hv : Voted σ.history (t + 1) q c T) :
    Voted σ.history t q c T ∨ (q = p ∧ (σ.raft (t + 1) p).currentTerm = T ∧
      (σ.raft (t + 1) p).votedFor = some c) := by
  obtain ⟨u, hu, hT, hc⟩ := hv
  rcases Nat.lt_or_eq_of_le hu with hu | rfl
  · exact .inl ⟨u, by omega, hT, hc⟩
  · by_cases hq : q = p
    · subst hq
      exact .inr ⟨rfl, hT, hc⟩
    · have hsame : σ.history (t + 1) q = σ.history t q := by
        unfold history raft
        rw [h.others q hq]
      rw [hsame] at hT hc
      exact .inl ⟨t, le_rfl, hT, hc⟩

theorem voted_of_keeps (h : NetStep (σ.run t) (σ.run (t + 1)) p kept msgs)
    (hk : ∀ c, (σ.raft (t + 1) p).votedFor = some c →
      (σ.raft t p).votedFor = some c ∧ (σ.raft (t + 1) p).currentTerm = (σ.raft t p).currentTerm)
    {q c : Fin n} {T : ℕ} (hv : Voted σ.history (t + 1) q c T) : Voted σ.history t q c T := by
  rcases voted_succ h hv with hv | ⟨rfl, hT, hc⟩
  · exact hv
  · obtain ⟨hc', hT'⟩ := hk c hc
    exact ⟨t, le_rfl, hT'.symm.trans hT, hc'⟩

theorem ballots_eq (h : NetStep (σ.run t) (σ.run (t + 1)) p kept msgs) (c q : Fin n) (T : ℕ) :
    (σ.run (t + 1)).ballots c q T =
      kept.countP (fun pk => pk.msg.ballot = some (c, q, T)) +
        msgs.countP (fun m => m.ballot = some (c, q, T)) := by
  obtain ⟨i, hnet⟩ := h.net
  unfold Cluster.ballots
  rw [hnet, List.countP_append, List.countP_map]
  rfl

theorem mem_net (h : NetStep (σ.run t) (σ.run (t + 1)) p kept msgs) {pk : Packet n C}
    (hpk : pk ∈ (σ.run (t + 1)).net) : pk ∈ kept ∨ pk.msg ∈ msgs := by
  obtain ⟨i, hnet⟩ := h.net
  rw [hnet] at hpk
  rcases List.mem_append.1 hpk with hpk | hpk
  · exact .inl hpk
  · obtain ⟨m, hm, rfl⟩ := List.mem_map.1 hpk
    exact .inr hm

theorem countP_ballot_none (hm : ∀ m ∈ msgs, m.ballot = none) (c q : Fin n) (T : ℕ) :
    msgs.countP (fun m => m.ballot = some (c, q, T)) = 0 := by
  refine List.countP_eq_zero.2 fun m hmem => ?_
  simp [hm m hmem]

theorem ballots_le (h : NetStep (σ.run t) (σ.run (t + 1)) p kept msgs)
    (hsub : kept.Sublist (σ.run t).net) (hm : ∀ m ∈ msgs, m.ballot = none) (c q : Fin n) (T : ℕ) :
    (σ.run (t + 1)).ballots c q T ≤ (σ.run t).ballots c q T := by
  rw [ballots_eq h, countP_ballot_none hm]
  exact hsub.countP_le

theorem term_le_succ (h2 : 2 ≤ n) (c : Fin n) :
    (σ.raft t c).currentTerm ≤ (σ.raft (t + 1) c).currentTerm :=
  (σ.isRun h2 (t + 1)).term_mono (Nat.le_succ t) le_rfl c

theorem ballots_pos {pk : Packet n C} (hpk : pk ∈ (σ.run t).net) {c q : Fin n} {T : ℕ}
    (hb : pk.msg.ballot = some (c, q, T)) : 0 < (σ.run t).ballots c q T :=
  List.countP_pos_iff.2 ⟨pk, hpk, by simpa using hb⟩

theorem Recorded.succ {p q : Fin n} {T : ℕ} {b : Bool} (h : σ.Recorded t p q T b)
    (hle : (σ.run (t + 1)).ballots p q T ≤ (σ.run t).ballots p q T)
    (hc : Voted σ.history (t + 1) q p T → Voted σ.history t q p T) :
    σ.Recorded (t + 1) p q T b := by
  obtain ⟨⟨u, hu, ha⟩, h⟩ := h
  refine ⟨⟨u, by omega, ha⟩, fun hf => ⟨?_, fun hv => (h hf).2 (hc hv)⟩⟩
  exact Nat.le_zero.1 (hle.trans (h hf).1.le)

/-- An action that casts no vote and sends none. -/
theorem VoteInv.fewer (h2 : 2 ≤ n) (hv : σ.VoteInv t)
    (h : NetStep (σ.run t) (σ.run (t + 1)) p kept msgs) (hsub : kept.Sublist (σ.run t).net)
    (hm : ∀ m ∈ msgs, m.ballot = none)
    (hc : ∀ c, (σ.raft (t + 1) p).votedFor = some c →
      (σ.raft t p).votedFor = some c ∧ (σ.raft (t + 1) p).currentTerm = (σ.raft t p).currentTerm)
    (hrec : ∀ {q b}, (σ.raft (t + 1) p).state = .stateCandidate → q ≠ p →
      (σ.raft (t + 1) p).votes q = some b →
      σ.Recorded (t + 1) p q (σ.raft (t + 1) p).currentTerm b) :
    σ.VoteInv (t + 1) := by
  have hle := ballots_le h hsub hm
  have hold : ∀ pk ∈ (σ.run (t + 1)).net, ∀ {x}, pk.msg.ballot = some x →
      pk ∈ (σ.run t).net := by
    intro pk hpk x hx
    rcases mem_net h hpk with hpk | hpk
    · exact hsub.subset hpk
    · simp [hm _ hpk] at hx
  refine ⟨fun c q T => (hle c q T).trans (hv.once c q T), fun pk hpk c q T hb => ?_,
    fun pk hpk c q T hb hg hvote => ?_, fun {p' q b} hs hq hb => ?_⟩
  · exact (hv.term_le pk (hold pk hpk hb) hb).trans (term_le_succ h2 c)
  · exact hv.unvoted pk (hold pk hpk hb) hb hg (voted_of_keeps h hc hvote)
  · by_cases hp : p' = p
    · subst hp
      exact hrec hs hq hb
    · have hsame : σ.raft (t + 1) p' = σ.raft t p' := h.others p' hp
      rw [hsame] at hs hb ⊢
      exact Recorded.succ (hv.recorded hs hq hb) (hle _ _ _) (voted_of_keeps h hc)

/-- An action that casts and records nothing. -/
theorem VoteInv.keep (h2 : 2 ≤ n) (hv : σ.VoteInv t)
    (h : NetStep (σ.run t) (σ.run (t + 1)) p kept msgs) (hsub : kept.Sublist (σ.run t).net)
    (hk : Keeps (σ.raft t p) (σ.raft (t + 1) p)) (hm : ∀ m ∈ msgs, m.ballot = none) :
    σ.VoteInv (t + 1) := by
  refine hv.fewer h2 h hsub hm hk.vote fun hs hq hb => ?_
  obtain ⟨hs', hT', hb'⟩ := hk.votes hs
  rw [hb'] at hb
  rw [hT']
  exact Recorded.succ (hv.recorded hs' hq hb) (ballots_le h hsub hm _ _ _)
    (voted_of_keeps h hk.vote)

/-- Nobody votes for a candidate in a term it has not reached. -/
theorem not_voted_of_lt (h2 : 2 ≤ n) {q c : Fin n} {T : ℕ} (hT : (σ.raft t c).currentTerm < T) :
    ¬ Voted σ.history t q c T := by
  rintro ⟨u, hu, hTu, hcu⟩
  obtain ⟨w, hw, -, -, x, hx, hcand, -⟩ := (σ.isRun h2 t).vote_origin hu hcu
  have hmono := (σ.isRun h2 t).term_mono (hx.trans (hw.trans hu)) le_rfl c
  rw [hcand.2, hTu] at hmono
  exact absurd hT (Nat.not_lt.2 hmono)

/-- What is in flight about a vote is the only such message. -/
theorem VoteInv.countP_others (hv : σ.VoteInv t) {k : ℕ} {pk : Packet n C}
    (hpk : (σ.run t).net[k]? = some pk) {c q : Fin n} {T : ℕ}
    (hb : pk.msg.ballot = some (c, q, T)) :
    ((σ.run t).net.eraseIdx k).countP (fun pk => pk.msg.ballot = some (c, q, T)) = 0 := by
  have honce := hv.once c q T
  unfold Cluster.ballots at honce
  rw [countP_eraseIdx _ _ k hpk] at honce
  simp only [hb, decide_true, if_true] at honce
  omega

/-- A request goes to each other server once. -/
theorem countP_requests_le {r : Raft n C} {args : RequestVoteArgs n} (x : Fin n × Fin n × ℕ) :
    (r.peers.map (Message.msgVote (C := C) · args)).countP (fun m => m.ballot = some x) ≤ 1 := by
  rw [List.countP_map]
  refine le_trans (List.countP_mono_left fun i _ hi => ?_)
    (List.nodup_iff_count_le_one.1 ((List.nodup_finRange n).filter _) x.2.1)
  simp only [Function.comp_apply, Message.ballot, decide_eq_true_eq, Option.some.injEq] at hi
  simp [← hi]

/-- A new term is asked for once, and nobody else has voted in it for this candidate. -/
theorem VoteInv.campaign (h2 : 2 ≤ n) (hv : σ.VoteInv t) {args : RequestVoteArgs n}
    (h : NetStep (σ.run t) (σ.run (t + 1)) p (σ.run t).net
      ((σ.raft t p).peers.map (.msgVote · args)))
    (hme : (σ.raft t p).me = p) (hid : args.candidateId = p)
    (hT : args.term = (σ.raft t p).currentTerm + 1)
    (hT' : (σ.raft (t + 1) p).currentTerm = (σ.raft t p).currentTerm + 1)
    (hc : (σ.raft (t + 1) p).votedFor = some p)
    (hvotes : ∀ q b, (σ.raft (t + 1) p).votes q = some b → q = p) : σ.VoteInv (t + 1) := by
  have hnew : ∀ {m}, m ∈ (σ.raft t p).peers.map (Message.msgVote (C := C) · args) →
      ∃ i, i ≠ p ∧ m.ballot = some (p, i, (σ.raft t p).currentTerm + 1) := by
    intro m hm
    obtain ⟨i, hi, rfl⟩ := List.mem_map.1 hm
    exact ⟨i, hme ▸ Raft.mem_peers.1 hi, by simp [Message.ballot, hid, hT]⟩
  have hnone : ∀ {c q T}, ¬ (c = p ∧ T = (σ.raft t p).currentTerm + 1) →
      ((σ.raft t p).peers.map (Message.msgVote (C := C) · args)).countP
        (fun m => m.ballot = some (c, q, T)) = 0 := by
    intro c q T hkey
    refine List.countP_eq_zero.2 fun m hm hb => ?_
    obtain ⟨i, -, hi⟩ := hnew hm
    rw [of_decide_eq_true hb] at hi
    simp only [Option.some.injEq, Prod.mk.injEq] at hi
    exact hkey ⟨hi.1, hi.2.2⟩
  -- nothing in flight is of the new term yet
  have hfresh : ∀ pk ∈ (σ.run t).net, ∀ {q T}, pk.msg.ballot = some (p, q, T) →
      T ≠ (σ.raft t p).currentTerm + 1 := by
    intro pk hpk q T hb
    have := hv.term_le pk hpk hb
    omega
  have hcast : ∀ {q c T}, Voted σ.history (t + 1) q c T →
      Voted σ.history t q c T ∨ (q = p ∧ c = p ∧ T = (σ.raft t p).currentTerm + 1) := by
    intro q c T hvote
    rcases voted_succ h hvote with hvote | ⟨rfl, hT₁, hc₁⟩
    · exact .inl hvote
    · exact .inr ⟨rfl, Option.some.inj (hc₁.symm.trans hc), hT₁.symm.trans hT'⟩
  refine ⟨fun c q T => ?_, fun pk hpk c q T hb => ?_, fun pk hpk c q T hb hg hvote => ?_,
    fun {p' q b} hs hq hb => ?_⟩
  · rw [ballots_eq h]
    by_cases hkey : c = p ∧ T = (σ.raft t p).currentTerm + 1
    · obtain ⟨rfl, rfl⟩ := hkey
      rw [List.countP_eq_zero.2 fun pk hpk hb => hfresh pk hpk (of_decide_eq_true hb) rfl,
        Nat.zero_add]
      exact countP_requests_le _
    · rw [hnone hkey, Nat.add_zero]
      exact hv.once c q T
  · rcases mem_net h hpk with hpk | hpk
    · exact (hv.term_le pk hpk hb).trans (term_le_succ h2 c)
    · obtain ⟨i, -, hi⟩ := hnew hpk
      rw [hb] at hi
      simp only [Option.some.injEq, Prod.mk.injEq] at hi
      obtain ⟨rfl, -, rfl⟩ := hi
      exact hT'.ge
  · rcases mem_net h hpk with hpk | hpk
    · rcases hcast hvote with hvote | ⟨rfl, rfl, hT₁⟩
      · exact hv.unvoted pk hpk hb hg hvote
      · exact hfresh pk hpk hb hT₁
    · obtain ⟨i, hne, hi⟩ := hnew hpk
      rw [hb] at hi
      simp only [Option.some.injEq, Prod.mk.injEq] at hi
      obtain ⟨rfl, rfl, rfl⟩ := hi
      rcases hcast hvote with hvote | ⟨rfl, -, -⟩
      · exact not_voted_of_lt h2 (Nat.lt_succ_self _) hvote
      · exact hne rfl
  · by_cases hp : p' = p
    · subst hp
      exact absurd (hvotes q b hb) hq
    · have hsame : σ.raft (t + 1) p' = σ.raft t p' := h.others p' hp
      rw [hsame] at hs hb ⊢
      refine Recorded.succ (hv.recorded hs hq hb) ?_ fun hvote => ?_
      · rw [ballots_eq h, hnone fun hkey => hp hkey.1, Nat.add_zero]
        rfl
      · exact (hcast hvote).resolve_right fun hself => hp hself.2.1

/-- A request is answered, with a vote or without. -/
theorem VoteInv.answer (h2 : 2 ≤ n) (hv : σ.VoteInv t) {k : ℕ} {pk₀ : Packet n C}
    {args : RequestVoteArgs n} {reply : RequestVoteReply} (hpk₀ : (σ.run t).net[k]? = some pk₀)
    (hmsg : pk₀.msg = .msgVote p args)
    (h : NetStep (σ.run t) (σ.run (t + 1)) p ((σ.run t).net.eraseIdx k)
      [.msgVoteResp p args.candidateId args reply])
    (hc : (reply.voteGranted = true ∧ (σ.raft (t + 1) p).votedFor = some args.candidateId ∧
        (σ.raft (t + 1) p).currentTerm = args.term ∧
        (σ.raft (t + 1) p).state = .stateFollower) ∨
      (reply.voteGranted = false ∧ Keeps (σ.raft t p) (σ.raft (t + 1) p))) :
    σ.VoteInv (t + 1) := by
  have hmem := List.mem_of_getElem? hpk₀
  have hkey : pk₀.msg.ballot = some (args.candidateId, p, args.term) := by
    rw [hmsg]
    rfl
  -- the answer takes the request's place
  have hsame : ∀ c q T, (σ.run (t + 1)).ballots c q T = (σ.run t).ballots c q T := by
    intro c q T
    rw [ballots_eq h]
    unfold Cluster.ballots
    rw [countP_eraseIdx _ _ k hpk₀, List.countP_singleton, hkey]
    rfl
  have hcast : ∀ {q c T}, Voted σ.history (t + 1) q c T → Voted σ.history t q c T ∨
      (reply.voteGranted = true ∧ q = p ∧ c = args.candidateId ∧ T = args.term) := by
    intro q c T hvote
    rcases hc with ⟨hg, hc₁, hT₁, -⟩ | ⟨-, hk⟩
    · rcases voted_succ h hvote with hvote | ⟨rfl, hT, hc₂⟩
      · exact .inl hvote
      · exact .inr ⟨hg, rfl, Option.some.inj (hc₂.symm.trans hc₁), hT.symm.trans hT₁⟩
    · exact .inl (voted_of_keeps h hk.vote hvote)
  -- what else is in flight is about other votes
  have hother : ∀ pk ∈ (σ.run t).net.eraseIdx k,
      pk.msg.ballot ≠ some (args.candidateId, p, args.term) := by
    intro pk hpk hb
    exact List.countP_eq_zero.1 (hv.countP_others hpk₀ hkey) pk hpk (by simpa using hb)
  refine ⟨fun c q T => (hsame c q T).trans_le (hv.once c q T), fun pk hpk c q T hb => ?_,
    fun pk hpk c q T hb hg hvote => ?_, fun {p' q b} hs hq hb => ?_⟩
  · rcases mem_net h hpk with hpk | hpk
    · exact (hv.term_le pk (List.mem_of_mem_eraseIdx hpk) hb).trans (term_le_succ h2 c)
    · rw [List.mem_singleton.1 hpk] at hb
      exact (hv.term_le pk₀ hmem (hkey.trans hb)).trans (term_le_succ h2 c)
  · rcases mem_net h hpk with hpk | hpk
    · rcases hcast hvote with hvote | ⟨-, rfl, rfl, rfl⟩
      · exact hv.unvoted pk (List.mem_of_mem_eraseIdx hpk) hb hg hvote
      · exact hother pk hpk hb
    · rw [List.mem_singleton.1 hpk] at hb hg
      rcases hcast hvote with hvote | ⟨hg', -⟩
      · exact hv.unvoted pk₀ hmem (hkey.trans hb) (by rw [hmsg]; rfl) hvote
      · simp [Message.granted, hg'] at hg
  · obtain ⟨hs', hT', hb'⟩ : (σ.raft t p').state = .stateCandidate ∧
        (σ.raft (t + 1) p').currentTerm = (σ.raft t p').currentTerm ∧
        (σ.raft (t + 1) p').votes = (σ.raft t p').votes := by
      by_cases hp : p' = p
      · subst hp
        rcases hc with ⟨-, -, -, hf⟩ | ⟨-, hk⟩
        · simp [hf] at hs
        · exact hk.votes hs
      · have hsame : σ.raft (t + 1) p' = σ.raft t p' := h.others p' hp
        exact ⟨hsame ▸ hs, by rw [hsame], by rw [hsame]⟩
    rw [hb'] at hb
    rw [hT']
    obtain ⟨⟨u, hu, ha⟩, h3⟩ := hv.recorded hs' hq hb
    refine ⟨⟨u, by omega, ha⟩, fun hf => ⟨(hsame _ _ _).trans (h3 hf).1, fun hvote => ?_⟩⟩
    rcases hcast hvote with hvote | ⟨-, rfl, rfl, hT⟩
    · exact (h3 hf).2 hvote
    · have hpos := ballots_pos hmem hkey
      rw [← hT, (h3 hf).1] at hpos
      exact absurd hpos (Nat.lt_irrefl 0)

/-- A candidate records an answer to its request in this term. -/
theorem VoteInv.record (h2 : 2 ≤ n) (hv : σ.VoteInv t) {src : Fin n} {k : ℕ} {pk₀ : Packet n C}
    {args : RequestVoteArgs n} {reply : RequestVoteReply} (hpk₀ : (σ.run t).net[k]? = some pk₀)
    (hmsg : pk₀.msg = .msgVoteResp src p args reply)
    (h : NetStep (σ.run t) (σ.run (t + 1)) p ((σ.run t).net.eraseIdx k) msgs)
    (hm : ∀ m ∈ msgs, m.ballot = none) (hs₀ : (σ.raft t p).state = .stateCandidate)
    (hT : args.term = (σ.raft t p).currentTerm)
    (hT' : (σ.raft (t + 1) p).currentTerm = (σ.raft t p).currentTerm)
    (hc : (σ.raft (t + 1) p).votedFor = (σ.raft t p).votedFor)
    (hvotes : (σ.raft (t + 1) p).votes = (σ.raft t p).pollVotes src reply.voteGranted) :
    σ.VoteInv (t + 1) := by
  have hmem := List.mem_of_getElem? hpk₀
  have hid : p = args.candidateId := by
    have := (σ.clusterOk h2 t).net pk₀ hmem
    rw [hmsg] at this
    exact this.1
  have hkey : pk₀.msg.ballot = some (p, src, (σ.raft t p).currentTerm) := by
    rw [hmsg, Message.ballot, ← hid, hT]
  have hsub := List.eraseIdx_sublist (σ.run t).net k
  have hkeep : ∀ c, (σ.raft (t + 1) p).votedFor = some c → (σ.raft t p).votedFor = some c ∧
      (σ.raft (t + 1) p).currentTerm = (σ.raft t p).currentTerm := fun c hc' =>
    ⟨hc.symm.trans hc', hT'⟩
  refine hv.fewer h2 h hsub hm hkeep fun {q b} hs hq hb => ?_
  rw [hvotes] at hb
  rw [hT']
  rcases Raft.pollVotes_some hb with hb | ⟨rfl, rfl⟩
  · exact Recorded.succ (hv.recorded hs₀ hq hb) (ballots_le h hsub hm _ _ _)
      (voted_of_keeps h hkeep)
  · refine ⟨⟨t, by omega, pk₀, hmem, args, reply, hmsg, hT, rfl⟩, fun hf => ⟨?_, fun hvote => ?_⟩⟩
    · -- this was the one answer
      rw [ballots_eq h, countP_ballot_none hm, hv.countP_others hpk₀ hkey]
    · exact hv.unvoted pk₀ hmem hkey (by rw [hmsg]; exact hf) (voted_of_keeps h hkeep hvote)

theorem VoteInv.zero (σ : Schedule n C) : σ.VoteInv 0 := by
  refine ⟨fun c q T => ?_, fun pk hpk => ?_, fun pk hpk => ?_, fun {p q b} hs => ?_⟩
  · simp [Cluster.ballots, run]
  · simp [run] at hpk
  · simp [run] at hpk
  · simp [raft, run, Raft.make, Raft.readPersist, Raft.becomeFollower] at hs

/-- Without misread answers, what candidates have recorded was answered in their term. -/
theorem voteInv (h2 : 2 ≤ n)
    (hno : ∀ t pk, σ.Delivers t pk → ¬ Misread (σ.raft t pk.msg.dst) pk.msg) :
    ∀ t, σ.VoteInv t
  | 0 => .zero σ
  | t + 1 => by
    have hv := voteInv h2 hno t
    have h := σ.clusterOk h2 t
    have hstep : BallotStep (σ.run t) (σ.run (t + 1)) := by
      refine (σ.step t).ballot h2 h fun k rnd pk hact hk hcan => ?_
      have hmis := hno t pk ⟨k, rnd, hact, hk, hcan⟩
      have hpk := List.mem_of_getElem? hk
      obtain ⟨r, msgs, hl, -⟩ := step_leaves h2 hpk hcan rnd
      refine ⟨hmis, _, hl.ok_iff.2 fun hend => hmis ?_⟩
      exact misread_of_pastEnd h.run (h.abs _) (h.net pk hpk) hend (h.ok _)
    cases hstep with
    | keep h hsub hk hm => exact hv.keep h2 h hsub hk hm
    | campaign h hme hid hT hT' hc hvotes => exact hv.campaign h2 h hme hid hT hT' hc hvotes
    | answer hpk hmsg h hc => exact hv.answer h2 hpk hmsg h hc
    | record hpk hmsg h hm hs hT hT' hc hvotes =>
      exact hv.record h2 hpk hmsg h hm hs hT hT' hc hvotes

/-- An answer to a request of an earlier term, not itself of a later one, changes nothing that
answers are recorded in just when it is not misread. In a run without misread answers, what a
candidate has recorded from another server is its answer to the request of this term, and a recorded
refusal means that the server has not voted for the candidate. -/
theorem stale_reply_iff (σ : Schedule n C) :
    (∀ t, ∀ pk ∈ (σ.run t).net, pk.msg.isResp = true → (σ.run t).CanDeliver pk →
      pk.msg.argsTerm < (σ.raft t pk.msg.dst).currentTerm →
      pk.msg.term ≤ (σ.raft t pk.msg.dst).currentTerm → ∀ rnd,
      ((∃ r msgs, (σ.raft t pk.msg.dst).step rnd pk.msg = .ok (r, msgs) ∧
        SameRecords (σ.raft t pk.msg.dst) r) ↔ ¬ Misread (σ.raft t pk.msg.dst) pk.msg)) ∧
    ((∀ t pk, σ.Delivers t pk → ¬ Misread (σ.raft t pk.msg.dst) pk.msg) →
      ∀ t p q b, (σ.raft t p).state = .stateCandidate → q ≠ p →
        (σ.raft t p).votes q = some b →
        σ.Answered t q p (σ.raft t p).currentTerm b ∧
          (b = false → ∀ u ≤ t, ¬ ((σ.raft u q).currentTerm = (σ.raft t p).currentTerm ∧
            (σ.raft u q).votedFor = some p))) := by
  match n with
  | 0 => exact ⟨fun t pk => pk.msg.dst.elim0, fun _ t p => p.elim0⟩
  | 1 =>
    refine ⟨fun t pk hpk => ?_, fun _ t p q b _ hq => absurd (Subsingleton.elim q p) hq⟩
    have hnet := (σ.singleCluster t).net
    simp [hnet] at hpk
  | n + 2 =>
    have h2 : 2 ≤ n + 2 := by omega
    refine ⟨fun t pk hpk hresp _ hold hT rnd => ?_, fun hno t p q b hs hq hb => ?_⟩
    · have h := σ.clusterOk h2 t
      exact stale_unaffected_iff h2 h.run (h.abs _) (h.ok _) (h.net pk hpk) hresp hold hT rnd
    · obtain ⟨ha, hr⟩ := (voteInv h2 hno t).recorded hs hq hb
      exact ⟨ha, fun hf u hu hv => (hr hf).2 ⟨u, hu, hv⟩⟩

/-- The packet an action takes from the network. -/
def picked (s : Cluster n C) : Action n C → Option (Packet n C)
  | .deliver k _ => s.net[k]?
  | _ => none

/-- A listed schedule delivers nothing that is misread if none of its actions does. -/
theorem ofList_not_misread {as : List (Action n C)}
    (h : ∀ t < as.length, ∀ pk ∈ picked ((ofList as).run t) (as.getD t .idle),
      ¬ Misread ((ofList as).raft t pk.msg.dst) pk.msg) :
    ∀ t pk, (ofList as).Delivers t pk → ¬ Misread ((ofList as).raft t pk.msg.dst) pk.msg := by
  rintro t pk ⟨k, rnd, hact, hk, -⟩
  have hact : as.getD t .idle = .deliver k rnd := hact
  rcases lt_or_ge t as.length with ht | ht
  · refine h t ht pk ?_
    rw [hact]
    exact hk
  · rw [List.getD_eq_getElem?_getD, List.getElem?_eq_none ht] at hact
    cases hact

end Schedule

/-- Server 0 of five asks for votes in term 2 and again in term 3, and gets one from server 2 while
one from server 1 for the earlier term is still on its way. -/
def slowVotes : List (Action 5 ℕ) :=
  List.flatten [ticks 0 10, [.deliver 0 0], ticks 0 10, [.deliver 5 0, .deliver 7 0]]

/-- The vote for the earlier term. -/
def slowVote : Packet 5 ℕ := ⟨.msgVoteResp 1 0 ⟨2, 0, 0, 1⟩ ⟨2, true⟩, 0⟩

theorem Schedule.stale_reply_iff_slowVotes :
    (slowVote ∈ ((ofList slowVotes).run 23).net ∧
      ∃ r msgs, ((ofList slowVotes).raft 23 0).step 0 slowVote.msg = .ok (r, msgs) ∧
        SameRecords ((ofList slowVotes).raft 23 0) r) ∧
    ((ofList slowVotes).raft 23 0).votes 2 = some true ∧
      (ofList slowVotes).Answered 23 2 0 ((ofList slowVotes).raft 23 0).currentTerm true := by
  obtain ⟨h₁, h₂⟩ := stale_reply_iff (ofList slowVotes)
  have hnet : slowVote ∈ ((ofList slowVotes).run 23).net := by decide +kernel
  have hvotes : ((ofList slowVotes).raft 23 0).votes 2 = some true := by decide +kernel
  refine ⟨⟨hnet, ?_⟩, hvotes, ?_⟩
  · exact (h₁ 23 slowVote hnet rfl (by decide +kernel) (by decide +kernel) (by decide +kernel) 0).2
      (by decide +kernel)
  · exact (h₂ (ofList_not_misread (by decide +kernel)) 23 0 2 true (by decide +kernel)
      (by decide) hvotes).1

/-- Server 0 of three asks for votes in term 2 and again in term 3. The request of term 3 arrives
at server 1 first and gets the vote; the refusal of the other is then the first answer to arrive. -/
def overtaken : Schedule 3 ℕ :=
  .ofList (List.flatten [ticks s₀ 10, ticks s₀ 10, [.deliver 2 0, .deliver 0 0, .deliver 3 0]])

/-- The refusal of the request of term 2, stamped with term 3. -/
def overtakenRefusal : Packet 3 ℕ := ⟨.msgVoteResp s₁ s₀ ⟨2, s₀, 0, 1⟩ ⟨3, false⟩, 0⟩

/-- The refusal of a request of an earlier term, not of a later one itself, changes the recorded
votes: the candidate of term 3 has a vote of server 1 in that term on record as refused. -/
theorem overtaken_vote_lost :
    (overtakenRefusal ∈ (overtaken.run 22).net ∧ (overtaken.run 22).CanDeliver overtakenRefusal ∧
      overtakenRefusal.msg.argsTerm < (overtaken.raft 22 0).currentTerm ∧
      overtakenRefusal.msg.term ≤ (overtaken.raft 22 0).currentTerm ∧
      ¬ ∃ r msgs, (overtaken.raft 22 0).step 0 overtakenRefusal.msg = .ok (r, msgs) ∧
        SameRecords (overtaken.raft 22 0) r) ∧
    (overtaken.raft 23 0).state = .stateCandidate ∧ (overtaken.raft 23 0).currentTerm = 3 ∧
    (overtaken.raft 23 1).currentTerm = 3 ∧ (overtaken.raft 23 1).votedFor = some 0 ∧
    (overtaken.raft 23 0).votes 1 = some false := by
  refine ⟨⟨by decide +kernel, by decide +kernel, by decide +kernel, by decide +kernel, ?_⟩,
    by decide +kernel⟩
  rintro ⟨r, msgs, hstep, hsame⟩
  have hvotes : ((overtaken.raft 22 0).step 0 overtakenRefusal.msg).toOption.map
      (fun x => x.1.votes 1) = some (some false) := by decide +kernel
  have hnone : (overtaken.raft 22 0).votes 1 = none := by decide +kernel
  rw [hstep] at hvotes
  have hr : r.votes 1 = some false := by simpa [Except.toOption] using hvotes
  rw [hsame.votes, hnone] at hr
  cases hr

end DistSystem
