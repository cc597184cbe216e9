import DistSystem.Proofs.KVNode

/-!
# The log respects real time

Under Raft's guarantee the `k`-th entry a server applies is the `k`-th of the one log (`InLog`), and
every entry is of a call that has begun. So once a handler has answered, the log up to its index is
made of calls begun by then, and what is called later stands further on.
-/

namespace DistSystem.KV

variable {n : ℕ} {s s' : Service n} {a : Action n} {p : Fin n} {log : ℕ → Op}

/-- What comes on `applyCh` is the next entry, and some handler has given it to `Start`. -/
theorem FromLog.delivery (h : FromLog log s a) {applyMsg : ApplyMsg Op} {op : Op}
    (hd : s.delivery a = some (p, applyMsg)) (hop : applyMsg.command = some op) :
    applyMsg.index = (s.nodes p).applied.length + 1 ∧ op = log (s.nodes p).applied.length ∧
      ∃ hd ∈ s.handlers, hd.args.entry = op := by
  obtain ⟨hmsg, hdl, hmem, -, hentry⟩ := h _ hd
  dsimp only at hmsg hentry
  rw [hmsg] at hop ⊢
  obtain rfl := Option.some.inj hop
  exact ⟨rfl, rfl, hdl, hmem, hentry⟩

/-- The server has applied the log from the first entry on, in order. -/
def InLog (log : ℕ → Op) (x : Node) : Prop :=
  ∀ k e, x.applied[k]? = some e → e.index = k + 1 ∧ e.op = log k

theorem InLog.step {x : Node} (hx : InLog log (s.nodes p)) (hlog : FromLog log s a)
    (h : NodeStep s a p x) : InLog log x := by
  cases h with
  | channels | get | halt => exact hx
  | apply hd hop hkv =>
    rename_i applyMsg op kv
    obtain ⟨hidx, hentry, -⟩ := hlog.delivery hd hop
    intro k e hk
    by_cases hlt : k < (s.nodes p).applied.length
    · rw [List.getElem?_append_left hlt] at hk
      exact hx k e hk
    · have hlen := (List.getElem?_eq_some_iff.1 hk).1
      obtain rfl : k = (s.nodes p).applied.length := by
        rw [List.length_append, List.length_singleton] at hlen
        omega
      rw [List.getElem?_concat_length] at hk
      cases hk
      exact ⟨hidx, hentry⟩
  | restart =>
    intro k e hk
    simp at hk

theorem InLog.entries {x : Node} (hx : InLog log x) {k : ℕ} (hk : k < x.applied.length) :
    x.entries[k]? = some (log k) := by
  unfold Node.entries
  rw [List.getElem?_map, List.getElem?_eq_getElem hk, Option.map_some,
    (hx k _ (List.getElem?_eq_getElem hk)).2]

/-- The index tells what was applied at it, and that everything before was applied too. -/
theorem InLog.hasApplied_iff {x : Node} (hx : InLog log x) {i : ℕ} {op : Op} :
    x.HasApplied i op ↔ ∃ k < x.applied.length, i = k + 1 ∧ op = log k := by
  constructor
  · rintro ⟨e, he, rfl, rfl⟩
    obtain ⟨k, hk⟩ := List.mem_iff_getElem?.1 he
    exact ⟨k, (List.getElem?_eq_some_iff.1 hk).1, hx k e hk⟩
  · rintro ⟨k, hk, rfl, rfl⟩
    have hget := List.getElem?_eq_getElem hk
    exact ⟨_, List.mem_of_getElem? hget, hx k _ hget⟩

theorem Service.reading_eq_some {hd : Handler n} {args : GetArgs}
    (h : s.reading a = some (hd, args)) :
    ∃ h, a = .read h ∧ s.handlers[h]? = some hd ∧ s.Live hd ∧ hd.phase = .read ∧
      hd.args = .get args := by
  cases a with
  | read k => exact ⟨k, rfl, Service.reader_eq_some h⟩
  | _ => cases h

theorem Service.issued_of_call {j : ℕ} {call : Call} (hj : s.calls[j]? = some call) :
    s.issued[j]? = some (call.clerk, call.args) := by
  simp [Service.issued, hj]

theorem Service.length_issued (s : Service n) : s.issued.length = s.calls.length := by
  simp [Service.issued]

namespace Schedule

variable {κ : Schedule n} (hlog : κ.Always (FromLog log))
include hlog

theorem inLog : ∀ t p, InLog log (κ.node t p)
  | 0, p => by
    intro k e hk
    simp [node, run] at hk
  | t + 1, p => (inLog t p).step (hlog t) ((κ.step t).node p)

/-- What a server has applied was issued by then. -/
theorem issued_of_applied : ∀ t p, ∀ e ∈ (κ.node t p).applied,
    ∃ (j : ℕ) (y : ℕ × Args), (κ.run t).issued[j]? = some y ∧ y.2.entry = e.op
  | 0, p, e, he => by simp [node, run] at he
  | t + 1, p, e, he => by
    have hold : e ∈ (κ.node t p).applied →
        ∃ (j : ℕ) (y : ℕ × Args), (κ.run (t + 1)).issued[j]? = some y ∧ y.2.entry = e.op := by
      intro he
      obtain ⟨j, y, hy, heq⟩ := issued_of_applied t p e he
      exact ⟨j, y, (κ.step t).issued_mono hy, heq⟩
    have hnode := (κ.step t).node p
    unfold node at he
    generalize (κ.run (t + 1)).nodes p = x at he hnode
    cases hnode with
    | channels | get | halt => exact hold he
    | apply hd hop =>
      rcases List.mem_append.1 he with he | he
      · exact hold he
      · obtain rfl := List.mem_singleton.1 he
        obtain ⟨-, -, hdl, hmem, hentry⟩ := (hlog t).delivery hd hop
        obtain ⟨c, hc⟩ := (κ.wired t).handlers hdl hmem
        exact ⟨hdl.call, _, (κ.step t).issued_mono hc, hentry⟩
    | restart => simp at he

theorem issued_of_hasApplied {t i : ℕ} {op : Op} (h : (κ.node t p).HasApplied i op) :
    ∃ (j : ℕ) (y : ℕ × Args), (κ.run t).issued[j]? = some y ∧ y.2.entry = op := by
  obtain ⟨e, he, -, rfl⟩ := h
  exact issued_of_applied hlog t p e he

/-- An answered handler has an index in the log, with its operation, that a server had applied. -/
theorem answered_index {t : ℕ} {hd : Handler n} (hhd : hd ∈ (κ.run t).handlers) {reply : Reply}
    (hr : hd.phase = .answered reply) (hlead : reply.wrongLeader = false) :
    ∃ k, hd.index = k + 1 ∧ log k = hd.args.entry ∧
      ∃ u ≤ t, k < (κ.node u hd.server).applied.length := by
  obtain ⟨u, hu, hap⟩ := hasApplied_of_answered hr hlead hhd
  obtain ⟨k, hk, hi, hop⟩ := (inLog hlog u _).hasApplied_iff.1 hap
  exact ⟨k, hi, hop.symm, u, hu, hk⟩

/-- Up to the index of an answered handler the log is of calls begun by then. -/
theorem index_lt_of_later (hid : Function.Injective κ.id) {t : ℕ} {hd : Handler n}
    (hhd : hd ∈ (κ.run t).handlers) {reply : Reply} (hr : hd.phase = .answered reply)
    (hlead : reply.wrongLeader = false) {u i j : ℕ} {y : ℕ × Args}
    (hy : (κ.run u).issued[j]? = some y) (hj : (κ.run t).issued.length ≤ j)
    (hap : (κ.node u p).HasApplied i y.2.entry) : hd.index < i := by
  obtain ⟨k₀, hidx, -, v, hv, hk₀⟩ := answered_index hlog hhd hr hlead
  obtain ⟨k, -, rfl, hop⟩ := (inLog hlog u p).hasApplied_iff.1 hap
  by_contra hle
  -- the entry was applied when the handler answered, so its call had begun
  have hap' : (κ.node v hd.server).HasApplied (k + 1) (log k) :=
    (inLog hlog v _).hasApplied_iff.2 ⟨k, by omega, rfl, rfl⟩
  obtain ⟨j', y', hy', hentry⟩ := issued_of_hasApplied hlog hap'
  rw [← hop] at hentry
  have hlt : j' < (κ.run t).issued.length :=
    (List.getElem?_eq_some_iff.1 (issued_mono hv hy')).1
  have heq : j' = j := issued_inj hid (issued_mono (Nat.le_max_left v u) hy')
    (issued_mono (Nat.le_max_right v u) hy) (by rw [hentry]) (by rw [hentry])
  omega

/-- The operation of a handler that has answered anything but wrong leader is what every server
applies at the index the handler waited on, and its own had applied it by then. What is called later
is applied at larger indices only, and when a `Get` called later reads, its server has applied the
operation. -/
theorem log_real_time (hid : Function.Injective κ.id) {t : ℕ} {hd : Handler n}
    (hhd : hd ∈ (κ.run t).handlers) {reply : Reply} (hr : hd.phase = .answered reply)
    (hlead : reply.wrongLeader = false) :
    (∃ u ≤ t, (κ.node u hd.server).HasApplied hd.index hd.args.entry) ∧
    (∀ u p op, (κ.node u p).HasApplied hd.index op → op = hd.args.entry) ∧
    (∀ u p i j call, (κ.run u).calls[j]? = some call → (κ.run t).calls.length ≤ j →
      (κ.node u p).HasApplied i call.args.entry → hd.index < i) ∧
    (∀ u gd args, (κ.run u).reading (κ.act u) = some (gd, args) →
      (κ.run t).calls.length ≤ gd.call →
      (κ.node u gd.server).HasApplied hd.index hd.args.entry) := by
  obtain ⟨k, hidx, hop, -⟩ := answered_index hlog hhd hr hlead
  refine ⟨hasApplied_of_answered hr hlead hhd, fun u p op hap => ?_,
    fun u p i j call hj hlen hap => ?_, fun u gd args hread hlen => ?_⟩
  · obtain ⟨k', -, hidx', rfl⟩ := (inLog hlog u p).hasApplied_iff.1 hap
    rw [← hop, show k' = k by omega]
  · rw [← Service.length_issued] at hlen
    exact index_lt_of_later hlog hid hhd hr hlead (Service.issued_of_call hj) hlen hap
  · -- its own entry was applied, and stands further on
    obtain ⟨h, -, hh, hl, hp, -⟩ := Service.reading_eq_some hread
    have hmem := List.mem_of_getElem? hh
    have hap := (κ.served u).read gd hmem hp hl.2.symm
    obtain ⟨c, hc⟩ := (κ.wired u).handlers gd hmem
    rw [← Service.length_issued] at hlen
    have hlt := index_lt_of_later hlog hid hhd hr hlead hc hlen hap
    obtain ⟨k', hk', hidx', -⟩ := (inLog hlog u gd.server).hasApplied_iff.1 hap
    exact (inLog hlog u gd.server).hasApplied_iff.2 ⟨k, by omega, hidx, hop.symm⟩

omit hlog in
theorem always_ofList {P : Service n → Action n → Prop} (hidle : ∀ s, P s .idle)
    {as : List (Action n)} (h : ∀ t < as.length, P ((ofList as).run t) (as.getD t .idle)) :
    (ofList as).Always P := by
  intro t
  rcases Nat.lt_or_ge t as.length with ht | ht
  · exact h t ht
  · have hact : (ofList as).act t = .idle := by
      simp [ofList, List.getD_eq_getElem?_getD, List.getElem?_eq_none ht]
    rw [hact]
    exact hidle _

end Schedule

/-- The first of two servers. -/
def first : Fin 2 := 0

/-- The second of two servers. -/
def second : Fin 2 := 1

/-- What is logged in `appendThenGet`. -/
def appendGetLog : ℕ → Op
  | 0 => ⟨.append, "k", "x", 0, 0⟩
  | _ => ⟨.get, "k", "", 1, 0⟩

/-- One Clerk appends, and after the answer another reads, both at the first server; then the second
server catches up. -/
def appendThenGet : List (Action 2) :=
  [.invoke 0 (.append "k" "x"), .call 0, .dispatch 0, .start 0 (some 1), .lookup 0,
    .apply first ⟨1, some (appendGetLog 0)⟩, .receive 0, .reply 0,
    .invoke 1 (.get "k"), .call 1, .dispatch 0, .start 1 (some 2), .lookup 1,
    .apply first ⟨2, some (appendGetLog 1)⟩, .receive 1, .read 1, .reply 0,
    .apply second ⟨1, some (appendGetLog 0)⟩, .apply second ⟨2, some (appendGetLog 1)⟩]

theorem appendThenGet_fromLog : (Schedule.ofList appendThenGet).Always (FromLog appendGetLog) :=
  Schedule.always_ofList (fun _ _ h => nomatch h) (by decide +kernel)

/-- The handler of the append, when it has answered. -/
def appendHandler : Handler 2 :=
  ⟨0, 0, .putAppend ⟨"k", "x", .append, 0, 0⟩, first, 0, 1,
    .answered (.putAppend ⟨false, some .ok⟩)⟩

/-- The handler of the `Get`, when it reads. -/
def getHandler : Handler 2 := ⟨1, 0, .get ⟨"k", 1, 0⟩, first, 0, 2, .read⟩

theorem Schedule.log_real_time_appendThenGet :
    appendHandler ∈ ((ofList appendThenGet).run 7).handlers ∧
    ((ofList appendThenGet).run 15).reading ((ofList appendThenGet).act 15) =
      some (getHandler, ⟨"k", 1, 0⟩) ∧
    ((ofList appendThenGet).node 15 first).HasApplied 1 (appendGetLog 0) := by
  have hhd : appendHandler ∈ ((ofList appendThenGet).run 7).handlers := by decide +kernel
  have hread : ((ofList appendThenGet).run 15).reading ((ofList appendThenGet).act 15) =
      some (getHandler, ⟨"k", 1, 0⟩) := by decide +kernel
  obtain ⟨-, -, -, h⟩ := log_real_time appendThenGet_fromLog (fun _ _ h => h) hhd rfl rfl
  exact ⟨hhd, hread, h 15 getHandler ⟨"k", 1, 0⟩ hread (by decide +kernel)⟩

end DistSystem.KV
