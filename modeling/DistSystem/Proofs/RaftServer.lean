import DistSystem.Raft.Server
import DistSystem.Lib.ReplogLog

/-!
# What the functions of a server do

A server is seen as a replica (`Raft.abs`): changing state leaves the log alone, and a log whose
entries carry their own positions (`LogWf`) makes every read that the code makes safe.
-/

namespace DistSystem

variable {n : ℕ} {C : Type}

def RaftState.role : RaftState → Replog.Role
  | .stateFollower => .follower
  | .stateCandidate => .candidate
  | .stateLeader => .leader

@[simp] theorem RaftState.role_eq_leader {s : RaftState} :
    s.role = .leader ↔ s = .stateLeader := by
  cases s <;> simp [RaftState.role]

@[simp] theorem RaftState.role_eq_candidate {s : RaftState} :
    s.role = .candidate ↔ s = .stateCandidate := by
  cases s <;> simp [RaftState.role]

@[simp] theorem RaftState.role_eq_follower {s : RaftState} :
    s.role = .follower ↔ s = .stateFollower := by
  cases s <;> simp [RaftState.role]

/-- The log is not empty and its entries carry their own positions. -/
structure LogWf (l : List (Log C)) : Prop where
  ne : l ≠ []
  index : ∀ {i : ℕ} {e : Log C}, l[i]? = some e → e.index = i

theorem LogWf.of_map_index {l : List (Log C)} (hne : l ≠ [])
    (h : l.map Log.index = List.range l.length) : LogWf l := by
  refine ⟨hne, fun {i e} he => ?_⟩
  have hi : (l.map Log.index)[i]? = some e.index := by simp [he]
  rw [h, List.getElem?_range (List.getElem?_eq_some_iff.1 he).1] at hi
  exact (Option.some.inj hi).symm

theorem LogWf.sentinel : LogWf ([Raft.sentinel] : List (Log C)) := .of_map_index (by simp) rfl

namespace Raft

variable (r : Raft n C)

/-- The replica a server is. -/
def abs : Replog.Replica (Fin n) (Log C) :=
  ⟨r.currentTerm, r.votedFor, r.state.role, r.log, r.commitIndex⟩

theorem entry_of_getElem? {r : Raft n C} {i : ℕ} {e : Log C} (h : r.log[i]? = some e) :
    r.entry i = .ok e := by
  simp [entry, h]

theorem entry_of_not_lt {r : Raft n C} {i : ℕ} (h : ¬ i < r.log.length) :
    r.entry i = .error ⟨r, "index out of range", false⟩ := by
  simp [entry, List.getElem?_eq_none (Nat.not_lt.1 h)]

theorem getElem?_lastLog {r : Raft n C} (h : r.log ≠ []) :
    r.log[r.log.length - 1]? = some r.lastLog := by
  rw [← List.getLast?_eq_getElem?, List.getLast?_eq_some_getLast h]
  simp [lastLog, List.getLast?_eq_some_getLast h, List.getLastD_eq_getLast?]

theorem lastIndex_eq {r : Raft n C} (h : LogWf r.log) : r.lastIndex + 1 = r.log.length := by
  have := h.index (getElem?_lastLog h.ne)
  have := List.length_pos_iff.2 h.ne
  simp only [lastIndex]
  omega

/-! ## Changing state -/

section Reset

variable (rnd T : ℕ) (lead : Option (Fin n))

@[simp] theorem reset_currentTerm : (r.reset rnd T).currentTerm = T := by
  unfold reset resetRandomizedElectionTimeout
  split_ifs <;> simp_all

theorem reset_votedFor :
    (r.reset rnd T).votedFor = if r.currentTerm ≠ T then none else r.votedFor := by
  unfold reset resetRandomizedElectionTimeout
  split_ifs <;> rfl

theorem reset_log {r : Raft n C} (h : r.log ≠ []) : (r.reset rnd T).log = r.log := by
  unfold reset resetRandomizedElectionTimeout
  split_ifs <;> simp_all

@[simp] theorem reset_me : (r.reset rnd T).me = r.me := by
  unfold reset resetRandomizedElectionTimeout
  split_ifs <;> rfl

@[simp] theorem reset_persister : (r.reset rnd T).persister = r.persister := by
  unfold reset resetRandomizedElectionTimeout
  split_ifs <;> rfl

@[simp] theorem reset_commitIndex : (r.reset rnd T).commitIndex = r.commitIndex := by
  unfold reset resetRandomizedElectionTimeout
  split_ifs <;> rfl

@[simp] theorem reset_lastApplied : (r.reset rnd T).lastApplied = r.lastApplied := by
  unfold reset resetRandomizedElectionTimeout
  split_ifs <;> rfl

@[simp] theorem reset_commitc : (r.reset rnd T).commitc = r.commitc := by
  unfold reset resetRandomizedElectionTimeout
  split_ifs <;> rfl

@[simp] theorem reset_applying : (r.reset rnd T).applying = r.applying := by
  unfold reset resetRandomizedElectionTimeout
  split_ifs <;> rfl

@[simp] theorem reset_applyCh : (r.reset rnd T).applyCh = r.applyCh := by
  unfold reset resetRandomizedElectionTimeout
  split_ifs <;> rfl

@[simp] theorem reset_votes : (r.reset rnd T).votes = fun _ => none := rfl

theorem abs_becomeFollower_self {r : Raft n C} (h : r.log ≠ []) :
    (r.becomeFollower rnd r.currentTerm lead).abs = { r.abs with role := .follower } := by
  simp [abs, becomeFollower, reset_votedFor, reset_log _ _ h, RaftState.role]

theorem abs_becomeFollower {r : Raft n C} (h : r.log ≠ []) (hT : r.currentTerm < T) :
    (r.becomeFollower rnd T lead).abs = r.abs.enter T := by
  rw [Replog.Replica.enter_of_lt (by exact hT)]
  simp [abs, becomeFollower, reset_votedFor, reset_log _ _ h, RaftState.role, hT.ne]

end Reset

end Raft

/-! ## Reading the log -/

namespace Raft

variable {r : Raft n C}

theorem matchTerm_eq (h : LogWf r.log) (i T : ℕ) :
    r.matchTerm i T = .ok (decide (r.log[i]?.map Log.term = some T)) := by
  have hl := lastIndex_eq h
  unfold matchTerm
  split_ifs with hi
  · have hi' : i < r.log.length := by omega
    rw [entry_of_getElem? (List.getElem?_eq_getElem hi')]
    simp [List.getElem?_eq_getElem hi', bind, Except.bind, pure, Except.pure, beq_eq_decide]
  · rw [List.getElem?_eq_none (by omega)]
    simp [pure, Except.pure]

theorem checkLog_ok (h : LogWf r.log) : r.checkLog = .ok () := by
  unfold checkLog
  rw [if_pos]
  refine List.ext_getElem? fun i => ?_
  rcases lt_or_ge i r.log.length with hi | hi
  · rw [List.getElem?_map, List.getElem?_range hi, List.getElem?_eq_getElem hi, Option.map_some,
      h.index (List.getElem?_eq_getElem hi)]
  · rw [List.getElem?_eq_none (by simpa using hi), List.getElem?_eq_none (by simpa using hi)]

theorem commitLeader_eq {c : ℕ} (h : LogWf r.log) (hc : c < r.log.length) :
    r.commitLeader c = .ok { r with
      commitIndex := max r.commitIndex c
      commitc := if r.commitIndex < c then some c else r.commitc } := by
  have hl := lastIndex_eq h
  unfold commitLeader commitTo
  by_cases hlt : r.commitIndex < c
  · rw [if_pos hlt, if_neg (by omega), if_neg (by omega), if_pos hlt, if_pos hlt,
      max_eq_right hlt.le]
  · rw [if_neg hlt, if_neg hlt, max_eq_left (Nat.not_lt.1 hlt)]

theorem checkNextIndex_ok (h : LogWf r.log) {reply : AppendEntiesReply}
    (hle : reply.nextIndex ≤ r.log.length) : r.checkNextIndex reply = .ok (r, reply) := by
  have := lastIndex_eq h
  rw [checkNextIndex, if_neg (by omega)]

end Raft

end DistSystem
