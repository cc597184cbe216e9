import DistSystem.Proofs.KVStore

/-!
# Acknowledged updates are executed once

The duplicate filter lets an operation pass when its first entry comes, unless an entry of the same
Clerk with a larger request number stands before it in the log. Calls that are made one after
another are logged in the order of their numbers, since the log respects real time; calls in
progress at once need not be.
-/

namespace DistSystem.KV

variable {n : ℕ} {log : ℕ → Op}

/-- By time `t` some server has applied `op`, and every server that has applied it, at whatever
time, has executed it exactly once. -/
def Schedule.ExactlyOnce (κ : Schedule n) (t : ℕ) (op : Op) : Prop :=
  (∃ u ≤ t, ∃ p, op ∈ (κ.node u p).entries) ∧
    ∀ u p, op ∈ (κ.node u p).entries → (κ.node u p).executed.count op = 1

/-- A `PutAppend` call with these arguments has returned to its caller. -/
def Schedule.Acknowledged (κ : Schedule n) (t : ℕ) (args : PutAppendArgs) : Prop :=
  ∃ call ∈ (κ.run t).calls, call.args = .putAppend args ∧ call.returned = true

instance (κ : Schedule n) (t : ℕ) (args : PutAppendArgs) : Decidable (κ.Acknowledged t args) :=
  inferInstanceAs (Decidable (∃ call ∈ (κ.run t).calls, _ ∧ _))

/-- In the log every entry of the client of `op` with a larger number comes after one of `op`. -/
def NotOvertaken (log : ℕ → Op) (op : Op) : Prop :=
  ∀ k, (log k).id = op.id → op.reqId < (log k).reqId → ∃ i < k, log i = op

theorem Call.returned_iff (call : Call) :
    call.returned = true ↔ ∃ reply, call.phase = .returned reply := by
  unfold Call.returned
  split
  · rename_i reply hp
    exact ⟨fun _ => ⟨reply, hp⟩, fun _ => rfl⟩
  · rename_i hne
    exact ⟨nofun, fun ⟨reply, hp⟩ => absurd hp (hne reply)⟩

theorem Schedule.Acknowledged.call {κ : Schedule n} {t : ℕ} {args : PutAppendArgs}
    (h : κ.Acknowledged t args) : ∃ (j : ℕ) (call : Call) (reply : Reply),
      (κ.run t).calls[j]? = some call ∧ call.args = .putAppend args ∧
        call.phase = .returned reply := by
  obtain ⟨call, hmem, hargs, hret⟩ := h
  obtain ⟨j, hj⟩ := List.mem_iff_getElem?.1 hmem
  obtain ⟨reply, hp⟩ := call.returned_iff.1 hret
  exact ⟨j, call, reply, hj, hargs, hp⟩

theorem Node.mem_entries_iff {x : Node} {op : Op} : op ∈ x.entries ↔ ∃ i, x.HasApplied i op := by
  unfold entries HasApplied
  rw [List.mem_map]
  exact ⟨fun ⟨e, he, heq⟩ => ⟨e.index, e, he, rfl, heq⟩, fun ⟨_, e, he, _, heq⟩ => ⟨e, he, heq⟩⟩

/-- The part of the log before the first entry of an operation. -/
theorem InLog.split {x : Node} (hx : InLog log x) {op : Op} (hop : op ∈ x.entries) :
    ∃ l₁ l₂, x.entries = l₁ ++ op :: l₂ ∧ op ∉ l₁ ∧ log l₁.length = op ∧
      ∀ b, b ∈ l₁ ↔ ∃ k < l₁.length, log k = b := by
  obtain ⟨l₁, l₂, heq, hnot⟩ := List.eq_append_cons_of_mem hop
  have hlen : x.applied.length = l₁.length + (l₂.length + 1) := by
    rw [← List.length_map (f := (·.op)), ← Node.entries, heq]
    simp
  have hget : ∀ k < x.applied.length, (l₁ ++ op :: l₂)[k]? = some (log k) := by
    intro k hk
    rw [← heq]
    exact hx.entries hk
  refine ⟨l₁, l₂, heq, hnot, ?_, fun b => ?_⟩
  · have := hget l₁.length (by omega)
    simpa using this.symm
  · rw [List.mem_iff_getElem?]
    constructor
    · rintro ⟨k, hk⟩
      have hlt := (List.getElem?_eq_some_iff.1 hk).1
      refine ⟨k, hlt, ?_⟩
      have := hget k (by omega)
      rw [List.getElem?_append_left hlt, hk] at this
      exact (Option.some.inj this).symm
    · rintro ⟨k, hlt, rfl⟩
      have := hget k (by omega)
      rw [List.getElem?_append_left hlt] at this
      exact ⟨k, this⟩

namespace Schedule

variable {κ : Schedule n}

/-- When a call began. -/
theorem issued_origin {j : ℕ} {y : ℕ × Args} : ∀ {t : ℕ}, (κ.run t).issued[j]? = some y →
    ∃ u < t, ∃ x, κ.act u = .invoke y.1 x ∧ (κ.run u).issued.length = j ∧
      y.2 = ((κ.run u).clerks y.1).args x
  | 0, hy => by simp [run, Service.issued] at hy
  | t + 1, hy => by
    rcases (κ.step t).issued with ⟨hi, -⟩ | ⟨c, x, ha, hi, -⟩
    · rw [hi] at hy
      obtain ⟨u, hu, h⟩ := issued_origin hy
      exact ⟨u, by omega, h⟩
    · rw [hi] at hy
      by_cases hlt : j < (κ.run t).issued.length
      · rw [List.getElem?_append_left hlt] at hy
        obtain ⟨u, hu, h⟩ := issued_origin hy
        exact ⟨u, by omega, h⟩
      · rw [List.getElem?_append_right (by omega)] at hy
        have hlast := (List.getElem?_eq_some_iff.1 hy).1
        obtain rfl := List.mem_singleton.1 (List.mem_of_getElem? hy)
        refine ⟨t, by omega, x, ha, ?_, rfl⟩
        rw [List.length_singleton] at hlast
        omega

/-- Where no Clerk calls `Get`, none lowers `ack`. -/
theorem keepsAck_of_updates (h : ∀ t c key, κ.act t ≠ .invoke c (.get key)) :
    κ.Always KeepsAck := by
  rintro t ⟨hd, args⟩ hread
  obtain ⟨k, -, hk, -, -, hargs⟩ := Service.reading_eq_some hread
  obtain ⟨c, hc⟩ := (κ.wired t).handlers hd (List.mem_of_getElem? hk)
  obtain ⟨u, -, x, hact, -, hx⟩ := issued_origin hc
  rw [hargs] at hx
  cases x with
  | get key => exact absurd hact (h u c key)
  | put | append => cases hx

theorem call_of_issued {t j : ℕ} {y : ℕ × Args} (hy : (κ.run t).issued[j]? = some y) :
    ∃ call, (κ.run t).calls[j]? = some call ∧ call.clerk = y.1 ∧ call.args = y.2 := by
  unfold Service.issued at hy
  rw [List.getElem?_map] at hy
  obtain ⟨call, hj, rfl⟩ := Option.map_eq_some_iff.1 hy
  exact ⟨call, hj, rfl, rfl⟩

/-- A call that has returned was answered for. -/
theorem answered_of_returned {t j : ℕ} {call : Call} {reply : Reply}
    (hj : (κ.run t).calls[j]? = some call) (hp : call.phase = .returned reply) :
    ∃ hd ∈ (κ.run t).handlers, hd.args = call.args ∧ hd.phase = .answered reply ∧
      reply.wrongLeader = false := by
  obtain ⟨hlead, hd, hhd, hcall, hr⟩ := (κ.wired t).returned j call reply hj hp
  obtain ⟨c, hc⟩ := (κ.wired t).handlers hd hhd
  rw [hcall, Service.issued_of_call hj] at hc
  exact ⟨hd, hhd, (congrArg Prod.snd (Option.some.inj hc)).symm, hr, hlead⟩

theorem applied_of_returned {t j : ℕ} {call : Call} {reply : Reply}
    (hj : (κ.run t).calls[j]? = some call) (hp : call.phase = .returned reply) :
    ∃ u ≤ t, ∃ p, call.args.entry ∈ (κ.node u p).entries := by
  obtain ⟨hd, hhd, hargs, hr, hlead⟩ := answered_of_returned hj hp
  obtain ⟨u, hu, hap⟩ := hasApplied_of_answered hr hlead hhd
  rw [hargs] at hap
  exact ⟨u, hu, hd.server, Node.mem_entries_iff.2 ⟨_, hap⟩⟩

section Log

variable (hlog : κ.Always (FromLog log)) (hid : Function.Injective κ.id)
include hlog hid

/-- What a server has applied with the number of a call is the operation of the call. -/
theorem entry_eq {t u j : ℕ} {p : Fin n} {call : Call} (hj : (κ.run t).calls[j]? = some call)
    {op : Op} (hop : op ∈ (κ.node u p).entries) (hi : op.id = call.args.entry.id)
    (hr : op.reqId = call.args.entry.reqId) : op = call.args.entry := by
  obtain ⟨_, hap⟩ := Node.mem_entries_iff.1 hop
  obtain ⟨j', y, hy, hentry⟩ := issued_of_hasApplied hlog hap
  have hy' := issued_mono (Nat.le_max_right t u) hy
  have hj' := issued_mono (Nat.le_max_left t u) (Service.issued_of_call hj)
  obtain rfl : j' = j := issued_inj hid hy' hj' (by rw [hentry, hi]) (by rw [hentry, hr])
  rw [hy'] at hj'
  cases hj'
  exact hentry.symm

/-- A server executes the operation of a call once, or never if the Clerk has overtaken it. -/
theorem count_executed (hkeep : κ.Always KeepsAck) {t u j : ℕ} {p : Fin n} {call : Call}
    (hj : (κ.run t).calls[j]? = some call)
    (hop : call.args.entry ∈ (κ.node u p).entries) :
    (κ.node u p).executed.count call.args.entry = 1 ↔ NotOvertaken log call.args.entry := by
  obtain ⟨l₁, l₂, heq, hnot, hfirst, hmem⟩ := (inLog hlog u p).split hop
  have hl₁ : ∀ b ∈ l₁, b ∈ (κ.node u p).entries := by
    intro b hb
    rw [heq]
    exact List.mem_append_left _ hb
  rw [(replayed hkeep u p).executed, heq, Dedup.count_passed_eq_one_iff hnot]
  constructor
  · intro hbefore k hk hlt
    rcases Nat.lt_trichotomy k l₁.length with hlen | rfl | hlen
    · have := hbefore (log k) ((hmem _).2 ⟨k, hlen, rfl⟩) hk
      omega
    · rw [hfirst] at hlt
      omega
    · exact ⟨_, hlen, hfirst⟩
  · intro hover b hb hbid
    obtain ⟨k, hk, rfl⟩ := (hmem b).1 hb
    by_contra hle
    rcases (Nat.le_of_not_lt hle).lt_or_eq with hlt | hreq
    · obtain ⟨i, hi, hlogi⟩ := hover k hbid hlt
      exact hnot ((hmem _).2 ⟨i, by omega, hlogi⟩)
    · -- it would be the operation itself
      rw [entry_eq hlog hid hj (hl₁ _ hb) hbid hreq.symm] at hb
      exact hnot hb

/-- If calls are made one after another, what is logged with a larger number than a call's is logged
after the call: by then the call had returned. -/
theorem logged_before (hone : κ.Always OneAtATime) {t u j k : ℕ} {p : Fin n} {call : Call}
    (hj : (κ.run t).calls[j]? = some call) (hk : k < (κ.node u p).applied.length)
    (hkid : (log k).id = call.args.entry.id) (hlt : call.args.entry.reqId < (log k).reqId) :
    ∃ i < k, log i = call.args.entry := by
  have hap : (κ.node u p).HasApplied (k + 1) (log k) :=
    (inLog hlog u p).hasApplied_iff.2 ⟨k, hk, rfl, rfl⟩
  obtain ⟨j', y, hy, hentry⟩ := issued_of_hasApplied hlog hap
  have hy' := issued_mono (Nat.le_max_right t u) hy
  have hz := issued_mono (Nat.le_max_left t u) (Service.issued_of_call hj)
  have hids : y.2.entry.id = call.args.entry.id := by rw [hentry, hkid]
  have hjj : j < j' := by
    by_contra hle
    rcases (Nat.le_of_not_lt hle).lt_or_eq with hj' | rfl
    · have := issued_lt hid hy' hz hids hj'
      rw [hentry] at this
      exact Nat.lt_asymm this hlt
    · rw [hy'] at hz
      obtain rfl := Option.some.inj hz
      rw [hentry] at hlt
      exact hlt.false
  obtain ⟨v, hv, x, hact, hlen, -⟩ := issued_origin hy
  -- the call was there when the later one began, and had returned
  obtain ⟨z, hzv⟩ : ∃ z, (κ.run v).issued[j]? = some z :=
    ⟨_, List.getElem?_eq_getElem (by omega)⟩
  have hzz := issued_mono (show v ≤ max t u by omega) hzv
  rw [hz] at hzz
  obtain rfl := Option.some.inj hzz
  obtain ⟨call', hcall', hclerk, hargs⟩ := call_of_issued hzv
  have hret := hone v y.1 (by rw [hact]; rfl) call' (List.mem_of_getElem? hcall')
    (hclerk.trans (issued_clerk hid hz hy' hids.symm))
  obtain ⟨reply, hp⟩ := call'.returned_iff.1 hret
  obtain ⟨hd, hhd, hargs', hr, hlead⟩ := answered_of_returned hcall' hp
  obtain ⟨k', hidx, hlog', -⟩ := answered_index hlog hhd hr hlead
  have hafter := index_lt_of_later hlog hid hhd hr hlead hy hlen.le
    (hentry.symm ▸ hap)
  exact ⟨k', by omega, by rw [hlog', hargs', hargs]⟩

/-- Calls made one after another are not overtaken. -/
theorem notOvertaken (hone : κ.Always OneAtATime) {t j : ℕ} {call : Call} {reply : Reply}
    (hj : (κ.run t).calls[j]? = some call) (hp : call.phase = .returned reply) :
    NotOvertaken log call.args.entry := by
  obtain ⟨u, -, p, hop⟩ := applied_of_returned hj hp
  obtain ⟨_, hap⟩ := Node.mem_entries_iff.1 hop
  obtain ⟨i, hi, -, hlogi⟩ := (inLog hlog u p).hasApplied_iff.1 hap
  intro k hk hlt
  rcases Nat.lt_or_ge i k with hik | hik
  · exact ⟨i, hik, hlogi.symm⟩
  · have hlen : k < (κ.node u p).applied.length := by omega
    exact logged_before hlog hid hone hj hlen hk hlt

end Log

/-- If no `Get` lowers `ack`, the update of a `PutAppend` call that has returned was executed
exactly once just when no entry of its Clerk with a larger number is logged before it, and always if
the Clerks make one call after another. -/
theorem putAppend_once_iff (hlog : κ.Always (FromLog log)) (hid : Function.Injective κ.id)
    (hkeep : κ.Always KeepsAck) :
    (∀ t args, κ.Acknowledged t args →
      (κ.ExactlyOnce t (Args.putAppend args).entry ↔
        NotOvertaken log (Args.putAppend args).entry)) ∧
    (κ.Always OneAtATime → ∀ t args, κ.Acknowledged t args →
      κ.ExactlyOnce t (Args.putAppend args).entry) := by
  have hiff : ∀ t args, κ.Acknowledged t args →
      (κ.ExactlyOnce t (Args.putAppend args).entry ↔
        NotOvertaken log (Args.putAppend args).entry) := by
    intro t args hack
    obtain ⟨j, call, reply, hj, hargs, hp⟩ := hack.call
    have happlied := applied_of_returned hj hp
    rw [← hargs]
    constructor
    · rintro ⟨-, hall⟩
      obtain ⟨u, -, p, hop⟩ := happlied
      exact (count_executed hlog hid hkeep hj hop).1 (hall u p hop)
    · intro hover
      exact ⟨happlied, fun u p hop => (count_executed hlog hid hkeep hj hop).2 hover⟩
  refine ⟨hiff, fun hone t args hack => (hiff t args hack).2 ?_⟩
  obtain ⟨j, call, reply, hj, hargs, hp⟩ := hack.call
  rw [← hargs]
  exact notOvertaken hlog hid hone hj hp

theorem putAppend_once_iff_appendThenGet :
    (ofList appendThenGet).Acknowledged 8 ⟨"k", "x", .append, 0, 0⟩ ∧
    (ofList appendThenGet).ExactlyOnce 8 (appendGetLog 0) := by
  have hkeep : (ofList appendThenGet).Always KeepsAck :=
    always_ofList (fun _ _ h => nomatch h) (by decide +kernel)
  have hone : (ofList appendThenGet).Always OneAtATime :=
    always_ofList (fun _ _ h => nomatch h) (by decide +kernel)
  have hack : (ofList appendThenGet).Acknowledged 8 ⟨"k", "x", .append, 0, 0⟩ := by decide +kernel
  exact ⟨hack, (putAppend_once_iff appendThenGet_fromLog (fun _ _ h => h) hkeep).2 hone 8 _ hack⟩

end Schedule

/-- What is logged in `twoAtOnce`. -/
def twoAtOnceLog : ℕ → Op
  | 0 => ⟨.append, "k", "y", 0, 1⟩
  | _ => ⟨.append, "k", "x", 0, 0⟩

/-- Two appends are in progress on one Clerk, and the second is logged before the first. -/
def twoAtOnce : List (Action 2) :=
  [.invoke 0 (.append "k" "x"), .invoke 0 (.append "k" "y"), .call 0, .call 1, .dispatch 0,
    .dispatch 0, .start 1 (some 1), .start 0 (some 2), .lookup 0, .lookup 1,
    .apply first ⟨1, some (twoAtOnceLog 0)⟩, .apply first ⟨2, some (twoAtOnceLog 1)⟩,
    .receive 0, .receive 1, .reply 0, .reply 0]

/-- The first append has returned to its caller and is applied, but was not executed. -/
theorem twoAtOnce_loses :
    (Schedule.ofList twoAtOnce).Always (FromLog twoAtOnceLog) ∧
    Function.Injective (Schedule.ofList twoAtOnce).id ∧
    (Schedule.ofList twoAtOnce).Acknowledged 16 ⟨"k", "x", .append, 0, 0⟩ ∧
    ((Schedule.ofList twoAtOnce).node 16 first).entries = [twoAtOnceLog 0, twoAtOnceLog 1] ∧
    ((Schedule.ofList twoAtOnce).node 16 first).executed = [twoAtOnceLog 0] ∧
    ((Schedule.ofList twoAtOnce).node 16 first).kv.db "k" = "y" ∧
    ¬ (Schedule.ofList twoAtOnce).ExactlyOnce 16
      (Args.putAppend ⟨"k", "x", .append, 0, 0⟩).entry := by
  have hrun : ((Schedule.ofList twoAtOnce).node 16 first).entries =
        [twoAtOnceLog 0, twoAtOnceLog 1] ∧
      ((Schedule.ofList twoAtOnce).node 16 first).executed = [twoAtOnceLog 0] ∧
      ((Schedule.ofList twoAtOnce).node 16 first).kv.db "k" = "y" := by
    decide +kernel
  refine ⟨Schedule.always_ofList (fun _ _ h => nomatch h) (by decide +kernel), fun _ _ h => h,
    by decide +kernel, hrun.1, hrun.2.1, hrun.2.2, fun hone => ?_⟩
  have hcount := hone.2 16 first (by rw [hrun.1]; decide)
  rw [hrun.2.1] at hcount
  exact absurd hcount (by decide)

end DistSystem.KV
