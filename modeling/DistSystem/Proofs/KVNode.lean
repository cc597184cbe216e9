import DistSystem.Proofs.KVStep

/-!
# What a key/value server has applied

How a step changes one server (`NodeStep`), and what is in its channels and known to its handlers: a
channel holds what was applied at its index, so a handler that answers anything but wrong leader has
its operation applied there (`Schedule.hasApplied_of_answered`).
-/

namespace DistSystem.KV

variable {n : ℕ} {s s' : Service n} {a : Action n} {p : Fin n}

/-- What an action makes of the server `p`. -/
inductive NodeStep (s : Service n) (a : Action n) (p : Fin n) : Node → Prop
  | channels {kv : RaftKV} (hdb : kv.db = (s.nodes p).kv.db) (hack : kv.ack = (s.nodes p).kv.ack)
    (hres : ∀ i op, kv.result i = some (some op) → (s.nodes p).kv.result i = some (some op)) :
    NodeStep s a p { s.nodes p with kv := kv }
  | get {h : ℕ} {hd : Handler n} {args : GetArgs} (ha : a = .read h)
    (hr : s.reader h = some (hd, args)) (hp : hd.server = p) :
    NodeStep s a p { s.nodes p with kv := ((s.nodes p).kv.get args).2 }
  | apply {applyMsg : ApplyMsg Op} {op : Op} {kv : RaftKV}
    (hd : s.delivery a = some (p, applyMsg)) (hop : applyMsg.command = some op)
    (hkv : (s.nodes p).kv.getApply applyMsg = .ok kv) :
    NodeStep s a p { s.nodes p with
      kv := kv
      applied := (s.nodes p).applied ++ [⟨applyMsg.index, op, !(s.nodes p).kv.checkDup op⟩] }
  | halt (st : Status) : NodeStep s a p { s.nodes p with status := st }
  | restart : NodeStep s a p ⟨.startKVServer, .running, (s.nodes p).incarnation + 1, []⟩

namespace RaftKV

variable {kv kv' : RaftKV}

theorem lookup_channels (kv : RaftKV) (index : ℕ) : (kv.lookup index).db = kv.db ∧
    (kv.lookup index).ack = kv.ack ∧
    ∀ i op, (kv.lookup index).result i = some (some op) → kv.result i = some (some op) := by
  unfold lookup
  split
  · exact ⟨rfl, rfl, fun _ _ h => h⟩
  · refine ⟨rfl, rfl, fun i op h => ?_⟩
    by_cases hi : i = index
    · subst hi
      simp at h
    · simpa [hi] using h

theorem receive_channels {index : ℕ} {op : Op} (h : kv.receive index = some (op, kv')) :
    kv.result index = some (some op) ∧ kv'.db = kv.db ∧ kv'.ack = kv.ack ∧
      ∀ i op, kv'.result i = some (some op) → kv.result i = some (some op) := by
  unfold receive at h
  split at h
  · rename_i op' hres
    cases h
    refine ⟨hres, rfl, rfl, fun i op h => ?_⟩
    by_cases hi : i = index
    · subst hi
      simp at h
    · simpa [hi] using h
  · cases h

theorem getApply_eq_ok {applyMsg : ApplyMsg Op} (h : kv.getApply applyMsg = .ok kv') :
    ∃ op, applyMsg.command = some op ∧
      kv' = ({ kv with prevIndex := applyMsg.index }.apply op).notify applyMsg.index op := by
  unfold getApply at h
  split at h
  · cases h
  · rename_i op hop
    dsimp only at h
    split_ifs at h
    cases h
    exact ⟨op, hop, rfl⟩

theorem apply_result (kv : RaftKV) (op : Op) : (kv.apply op).result = kv.result := by
  unfold apply
  split_ifs <;> rfl

theorem getApply_result {applyMsg : ApplyMsg Op} {op : Op} (hop : applyMsg.command = some op)
    (h : kv.getApply applyMsg = .ok kv') :
    kv'.result = Function.update kv.result applyMsg.index (some (some op)) := by
  obtain ⟨op', hop', rfl⟩ := getApply_eq_ok h
  obtain rfl : op = op' := Option.some.inj (hop.symm.trans hop')
  rw [notify, apply_result]

end RaftKV

theorem Service.reader_eq_of {h : ℕ} {hd : Handler n} {args : GetArgs}
    (hh : s.handlers[h]? = some hd) (hl : s.Live hd) (hp : hd.phase = .read)
    (ha : hd.args = .get args) : s.reader h = some (hd, args) := by
  have hat : s.handlerAt h .read = some hd := by
    unfold handlerAt
    rw [hh]
    exact if_pos ⟨hl, hp⟩
  unfold reader
  rw [hat]
  simp only [ha]

theorem NodeStep.refl (s : Service n) (a : Action n) (p : Fin n) : NodeStep s a p (s.nodes p) :=
  .channels rfl rfl fun _ _ h => h

theorem Turn.node {h : ℕ} {hd hd' : Handler n} {x' : Node} (hh : s.handlers[h]? = some hd)
    (hl : s.Live hd) (ht : Turn (s.nodes hd.server) hd h a x' hd') :
    NodeStep s a hd.server x' := by
  cases ht with
  | start | refuse => exact .refl s _ _
  | lookup =>
    obtain ⟨hdb, hack, hres⟩ := RaftKV.lookup_channels (s.nodes hd.server).kv hd.index
    exact .channels hdb hack hres
  | mismatch _ hr | get _ _ hr | putAppend _ _ hr =>
    obtain ⟨-, hdb, hack, hres⟩ := RaftKV.receive_channels hr
    exact .channels hdb hack hres
  | read hp ha => exact .get rfl (Service.reader_eq_of hh hl hp ha) rfl

theorem Node.getApply_node {applyMsg : ApplyMsg Op} (hr : (s.nodes p).status = .running) :
    NodeStep s (.apply p applyMsg) p ((s.nodes p).getApply applyMsg) := by
  unfold Node.getApply
  split
  · rename_i kv hkv
    obtain ⟨op, hop, -⟩ := RaftKV.getApply_eq_ok hkv
    have hd : s.delivery (.apply p applyMsg) = some (p, applyMsg) := if_pos hr
    simp only [hop, Option.map_some, Option.toList_some]
    exact .apply hd hop hkv
  · exact .halt _

theorem Step.node (h : Step s a s') (p : Fin n) : NodeStep s a p (s'.nodes p) := by
  -- one server changes, and `p` may be another
  have hset : ∀ {q : Fin n} {x : Node}, NodeStep s a q x →
      NodeStep s a p ((s.setNode q x).nodes p) := by
    intro q x hx
    by_cases hpq : p = q
    · subst hpq
      simpa [Service.setNode] using hx
    · simpa [Service.setNode, Function.update_of_ne hpq] using NodeStep.refl s a p
  cases h with
  | turn hh hl ht => exact hset (ht.node hh hl)
  | apply hr => exact hset (Node.getApply_node hr)
  | crash q => exact hset (.halt .crashed)
  | restart hr => exact hset .restart
  | lose | invoke | call | fail | dispatch | reply => exact .refl s _ p

/-- Within an incarnation what was applied stays applied. -/
theorem NodeStep.applied {x : Node} (h : NodeStep s a p x) :
    (x.incarnation = (s.nodes p).incarnation ∧ (s.nodes p).applied <+: x.applied) ∨
      x.incarnation = (s.nodes p).incarnation + 1 := by
  cases h with
  | channels | get | halt => exact .inl ⟨rfl, List.prefix_rfl⟩
  | apply => exact .inl ⟨rfl, List.prefix_append _ _⟩
  | restart => exact .inr rfl

theorem Node.HasApplied.mono {x y : Node} {i : ℕ} {op : Op} (h : x.HasApplied i op)
    (hxy : x.applied <+: y.applied) : y.HasApplied i op := by
  obtain ⟨e, he, hi⟩ := h
  exact ⟨e, hxy.subset he, hi⟩

/-- What channels and handlers know of what was applied. -/
structure Served (s : Service n) : Prop where
  channel : ∀ p i op, (s.nodes p).kv.result i = some (some op) → (s.nodes p).HasApplied i op
  incarnation : ∀ hd ∈ s.handlers, hd.incarnation ≤ (s.nodes hd.server).incarnation
  read : ∀ hd ∈ s.handlers, hd.phase = .read →
    hd.incarnation = (s.nodes hd.server).incarnation →
    (s.nodes hd.server).HasApplied hd.index hd.args.entry

namespace Served

theorem channel_step (hs : Served s) (h : Step s a s') (p : Fin n) (i : ℕ) (op : Op)
    (hi : (s'.nodes p).kv.result i = some (some op)) : (s'.nodes p).HasApplied i op := by
  have hold := hs.channel p i op
  generalize hx : s'.nodes p = x at hi ⊢
  have hnode := hx ▸ h.node p
  cases hnode with
  | channels _ _ hres => exact hold (hres i op hi)
  | get | halt => exact hold hi
  | apply hd hop hkv =>
    rename_i applyMsg op' kv
    rw [RaftKV.getApply_result hop hkv] at hi
    by_cases hidx : i = applyMsg.index
    · subst hidx
      obtain rfl : op' = op := by simpa using hi
      exact ⟨_, List.mem_append_right _ (List.mem_singleton.2 rfl), rfl, rfl⟩
    · rw [Function.update_of_ne hidx] at hi
      refine (hold hi).mono ?_
      exact List.prefix_append _ _
  | restart => simp [RaftKV.startKVServer] at hi

theorem incarnation_step (hs : Served s) (h : Step s a s') :
    ∀ hd ∈ s'.handlers, hd.incarnation ≤ (s'.nodes hd.server).incarnation := by
  have hmono : ∀ q, (s.nodes q).incarnation ≤ (s'.nodes q).incarnation := by
    intro q
    rcases (h.node q).applied with ⟨hinc, -⟩ | hinc <;> omega
  intro hd' hhd
  rcases h.mem_handlers hhd with hhd | ⟨rq, hrq, rfl, -⟩ | ⟨k, hd, hh, -, ht⟩
  · exact (hs.incarnation hd' hhd).trans (hmono _)
  · exact hmono _
  · obtain ⟨-, -, hserver, hinc⟩ := ht.call
    rw [hserver, hinc]
    exact (hs.incarnation hd (List.mem_of_getElem? hh)).trans (hmono _)

/-- What a handler got from its channel was applied. -/
theorem received (hs : Served s) {hd : Handler n} {op : Op} {kv : RaftKV}
    (hr : (s.nodes hd.server).kv.receive hd.index = some (op, kv)) :
    (s.nodes hd.server).HasApplied hd.index op :=
  hs.channel _ _ _ (RaftKV.receive_channels hr).1

/-- A handler that begins to read has its operation applied. -/
theorem read_turn (hs : Served s) {h : ℕ} {hd hd' : Handler n} {x' : Node}
    (ht : Turn (s.nodes hd.server) hd h a x' hd') (hp : hd'.phase = .read) :
    (s.nodes hd.server).HasApplied hd'.index hd'.args.entry := by
  cases ht with
  | get _ _ hr => exact hs.received hr
  | start | refuse | lookup | mismatch | putAppend | read => cases hp

theorem read_step (hs : Served s) (h : Step s a s') : ∀ hd ∈ s'.handlers, hd.phase = .read →
    hd.incarnation = (s'.nodes hd.server).incarnation →
    (s'.nodes hd.server).HasApplied hd.index hd.args.entry := by
  intro hd' hhd hp hinc
  rcases h.mem_handlers hhd with hhd | ⟨rq, hrq, rfl, -⟩ | ⟨k, hd, hh, hl, ht⟩
  · have hle := hs.incarnation hd' hhd
    rcases (h.node hd'.server).applied with ⟨heq, hpre⟩ | hnew
    · exact (hs.read hd' hhd hp (hinc.trans heq)).mono hpre
    · omega
  · cases hp
  · obtain ⟨-, -, hserver, hinc'⟩ := ht.call
    have hread := hs.read_turn ht hp
    have hle := hl.2
    rw [hserver] at hinc ⊢
    rcases (h.node hd.server).applied with ⟨heq, hpre⟩ | hnew
    · exact hread.mono hpre
    · omega

theorem step (hs : Served s) (h : Step s a s') : Served s' where
  channel := hs.channel_step h
  incarnation := hs.incarnation_step h
  read := hs.read_step h

/-- A handler that answers anything but wrong leader has its operation applied. -/
theorem answered_turn (hs : Served s) {h : ℕ} {hd hd' : Handler n} {x' : Node}
    (hh : s.handlers[h]? = some hd) (hl : s.Live hd)
    (ht : Turn (s.nodes hd.server) hd h a x' hd') {reply : Reply}
    (hr : hd'.phase = .answered reply) (hlead : reply.wrongLeader = false) :
    (s.nodes hd.server).HasApplied hd'.index hd'.args.entry := by
  have hrefused : hd.args.refused.wrongLeader = true := by
    cases hd.args <;> rfl
  cases ht with
  | refuse | mismatch =>
    cases hr
    rw [hrefused] at hlead
    cases hlead
  | putAppend _ _ hr' => exact hs.received hr'
  | read hp => exact hs.read hd (List.mem_of_getElem? hh) hp hl.2.symm
  | start | lookup | get => cases hr

end Served

namespace Schedule

variable (κ : Schedule n)

theorem served : ∀ t, Served (κ.run t)
  | 0 => by
    constructor <;> simp [run, RaftKV.startKVServer]
  | t + 1 => (served t).step (κ.step t)

variable {κ}

/-- What a handler has answered for was applied at the index that it waited on. -/
theorem hasApplied_of_answered {hd : Handler n} {reply : Reply}
    (hr : hd.phase = .answered reply) (hlead : reply.wrongLeader = false) :
    ∀ {t : ℕ}, hd ∈ (κ.run t).handlers →
      ∃ u ≤ t, (κ.node u hd.server).HasApplied hd.index hd.args.entry
  | 0, hhd => by simp [run] at hhd
  | t + 1, hhd => by
    rcases (κ.step t).mem_handlers hhd with hhd | ⟨rq, hrq, rfl, -⟩ | ⟨k, hd₀, hh, hl, ht⟩
    · obtain ⟨u, hu, hap⟩ := hasApplied_of_answered hr hlead hhd
      exact ⟨u, by omega, hap⟩
    · cases hr
    · refine ⟨t, by omega, ?_⟩
      rw [ht.call.2.2.1]
      exact (κ.served t).answered_turn hh hl ht hr hlead

end Schedule

end DistSystem.KV
