import Mathlib.Data.Finset.Basic
import Mathlib.Data.List.Basic

/-!
# Replicated logs

Replicas that elect one leader a term and copy its log. The network is left out: what a message
could tell a replica is what its sender's state was at some earlier time, so a move reads the
states of the others at times up to now (`Move`). A run is a sequence of states in which every
replica makes a move at every time, the move that changes nothing included (`Run`).
-/

namespace Replog

inductive Role where
  | follower
  | candidate
  | leader
  deriving DecidableEq, Repr

/-- What a replica is known by: the term it is in, its vote there, its part, its log and how much
of the log it takes for committed. -/
@[ext]
structure Replica (V E : Type*) where
  term : ℕ
  vote : Option V
  role : Role
  log : List E
  commit : ℕ

/-- The parameters: the term an entry was made in, the sets that can elect and commit, and the
log and term every replica starts with. -/
structure Protocol (V E : Type*) where
  termOf : E → ℕ
  quorum : Set (Finset V)
  base : List E
  term₀ : ℕ
  inter : ∀ {Q Q'}, Q ∈ quorum → Q' ∈ quorum → ∃ v, v ∈ Q ∧ v ∈ Q'
  base_ne : base ≠ []
  base_le : ∀ e ∈ base, termOf e ≤ term₀
  base_sorted : (base.map termOf).Pairwise (· ≤ ·)

variable {V E : Type*} (P : Protocol V E)

namespace Protocol

/-- The term of the last entry. -/
def lastTerm (l : List E) : ℕ := (l.getLast?.map P.termOf).getD 0

/-- A log a candidate may ask for votes with: its last entry is of a later term than the voter's
last entry, or of the same term in a log no shorter. -/
def UpToDate (l l' : List E) : Prop :=
  P.lastTerm l' < P.lastTerm l ∨ (P.lastTerm l = P.lastTerm l' ∧ l'.length ≤ l.length)

/-- How every replica starts. -/
def start : Replica V E := ⟨P.term₀, none, .follower, P.base, 0⟩

end Protocol

/-- A replica that hears of term `T`. -/
def Replica.enter (s : Replica V E) (T : ℕ) : Replica V E :=
  if s.term < T then { s with term := T, vote := none, role := .follower } else s

open scoped Classical in
/-- The log after receiving the log `L`: one that extends `L` stays. -/
noncomputable def merge (L l : List E) : List E := if L <+: l then l else L

variable (τ : ℕ → V → Replica V E)

def CandidateAt (t : ℕ) (v : V) (T : ℕ) : Prop := (τ t v).role = .candidate ∧ (τ t v).term = T

def LeaderAt (t : ℕ) (v : V) (T : ℕ) : Prop := (τ t v).role = .leader ∧ (τ t v).term = T

/-- The states replica `v` may have after time `t`. -/
inductive Move (t : ℕ) (v : V) : Replica V E → Prop
  | quiet : Move t v (τ t v)
  /-- A restart keeps the term, the vote and the log. -/
  | retire : Move t v { τ t v with role := .follower, commit := 0 }
  | stepDown : Move t v { τ t v with role := .follower }
  | observe {T : ℕ} (h : (τ t v).term < T) : Move t v ((τ t v).enter T)
  | campaign (h : (τ t v).role ≠ .leader) :
      Move t v { τ t v with term := (τ t v).term + 1, vote := some v, role := .candidate }
  | grant {T u : ℕ} {c : V} (hT : ((τ t v).enter T).term = T)
      (hr : ((τ t v).enter T).role = .follower)
      (hv : ((τ t v).enter T).vote = none ∨ ((τ t v).enter T).vote = some c)
      (hu : u ≤ t) (hc : CandidateAt τ u c T) (hup : P.UpToDate (τ u c).log (τ t v).log) :
      Move t v { (τ t v).enter T with vote := some c }
  | elect {Q : Finset V} (hr : (τ t v).role = .candidate) (hQ : Q ∈ P.quorum)
      (hv : ∀ p ∈ Q, ∃ u ≤ t, (τ u p).term = (τ t v).term ∧ (τ u p).vote = some v) :
      Move t v { τ t v with role := .leader }
  | propose {e : E} (hr : (τ t v).role = .leader) (he : P.termOf e = (τ t v).term) :
      Move t v { τ t v with log := (τ t v).log ++ [e] }
  /-- Taking over what the leader of term `T` had at time `u`. -/
  | accept {T u : ℕ} {l : V} (hT : ((τ t v).enter T).term = T)
      (hr : ((τ t v).enter T).role ≠ .leader) (hu : u ≤ t) (hl : LeaderAt τ u l T) :
      Move t v { (τ t v).enter T with
        role := .follower
        log := merge (τ u l).log (τ t v).log
        commit := max (τ t v).commit (τ u l).commit }
  /-- A leader commits up to an entry of its own term that a quorum held in that term. -/
  | advance {k : ℕ} {e : E} {Q : Finset V} (hr : (τ t v).role = .leader)
      (hk : (τ t v).log[k]? = some e) (he : P.termOf e = (τ t v).term) (hQ : Q ∈ P.quorum)
      (hack : ∀ p ∈ Q, ∃ u ≤ t, (τ u p).term = (τ t v).term ∧
        (τ t v).log.take (k + 1) <+: (τ u p).log) :
      Move t v { τ t v with commit := k }

/-- `τ` is a run up to time `N`. -/
structure Run (N : ℕ) : Prop where
  init : ∀ v, τ 0 v = P.start
  next : ∀ t < N, ∀ v, Move P τ t v (τ (t + 1) v)

end Replog
