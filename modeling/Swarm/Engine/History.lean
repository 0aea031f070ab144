import Swarm.Engine.Kept

/-!
# The store of a node is a run of its calls

Nothing but the calls listed in the trace changes the store of a node, and every record passed to
them came through the gate or was signed here.
-/

namespace Swarm

/-- The store is what the calls in the trace make of the empty store, and their records are in
`V`. -/
structure History (env : Env) (V : Record → Prop) (n : Node) : Prop where
  store : n.store = runStore env.storeCfg {} (storeOps n.trace)
  calls : ∀ nowMs r, StoreOp.apply nowMs r ∈ storeOps n.trace → V r

namespace History

variable {env : Env} {V : Record → Prop} {n : Node}

/-- A call extends the history. -/
theorem call (h : History env V n) {op : StoreOp} (hop : ∀ nowMs r, op = .apply nowMs r → V r)
    {n' : Node} (hstore : n'.store = op.exec env.storeCfg n.store)
    (htrace : storeOps n'.trace = storeOps n.trace ++ [op]) : History env V n' where
  store := by rw [hstore, htrace, runStore_concat, h.store]
  calls nowMs r hmem := by
    rw [htrace, List.mem_append, List.mem_singleton] at hmem
    exact hmem.elim (h.calls nowMs r) fun heq => hop nowMs r heq.symm

/-- What makes no call keeps the history. -/
theorem frame (h : History env V n) {n' : Node} (hstore : n'.store = n.store)
    (htrace : storeOps n'.trace = storeOps n.trace) : History env V n' where
  store := by rw [hstore, htrace, h.store]
  calls := by rw [htrace]; exact h.calls

theorem called (hin : ∀ rd r, env.gate.letThrough env.cr (Reading.wallMs rd) r = true → V r) :
    Called env V (History env V) where
  toCalm := .of_core
    (fun _ _ _ h => h.frame rfl (by simp [Node.send, storeOps_append, storeOps]))
    (fun h hcore => h.frame hcore.store (congrArg storeOps hcore.trace))
  inbound := hin
  apply rd r hr h := h.call (by rintro _ _ ⟨⟩; exact hr) rfl (storeOps_append _ _)
  reap nowMs ttlFor h := h.call (by rintro _ _ ⟨⟩) rfl (storeOps_append _ _)
  accept _ h := h.frame rfl (by simp [Node.accept, storeOps_append, storeOps])
  clock _ h := h.frame rfl rfl

theorem kept (hin : ∀ rd r, env.gate.letThrough env.cr (Reading.wallMs rd) r = true → V r)
    (hsigned : ∀ r : Record, r.nodeID = env.id ∨ (r.tombstone = true ∧ r.observerNodeID = env.id) →
      V (signRecord env.cr r env.cfg.privKey)) : Kept env V (History env V) where
  toCalled := called hin
  signed := hsigned

/-- The keys of the node's own slots are keys of records passed to the store. -/
theorem own_key {K : Bytes → Prop} (h : History env V n) (hnil : K []) (hV : ∀ r, V r → K r.key)
    {r : Record} (hr : r ∈ Node.ownRecords env n.store) : K r.key := by
  unfold Node.ownRecords at hr
  obtain ⟨⟨t, ts⟩, hts, hr⟩ := List.mem_flatMap.mp hr
  obtain ⟨⟨k, x⟩, hslot, rfl⟩ := List.mem_map.mp hr
  have hslot : (n.store.topic t).records.lookup k = some x := by
    rw [RecordStore.topic, FMap.lookup_eq_some_iff.mpr hts]
    exact FMap.lookup_eq_some_iff.mpr (List.mem_filter.mp hslot).1
  rw [h.store] at hslot
  obtain rfl : keyOf x = k := congrArg Prod.snd (run_placed _ _ t k x hslot)
  exact run_keys hnil _ _ t (fun nowMs r hr => hV r (h.calls nowMs r hr)) (keyOf x)
    (by rw [hslot]; exact Option.some_ne_none x)

/-- Where the records passed have keys in `K`, it is enough to sign for keys in `K`. -/
theorem keptKeyed {K : Bytes → Prop} (hfits : ∀ key, key.length ≤ maxKeyBytes → K key)
    (hV : ∀ r, V r → K r.key)
    (hin : ∀ rd r, env.gate.letThrough env.cr (Reading.wallMs rd) r = true → V r)
    (hsigned : ∀ r : Record, K r.key →
      r.nodeID = env.id ∨ (r.tombstone = true ∧ r.observerNodeID = env.id) →
      V (signRecord env.cr r env.cfg.privKey)) : KeptKeyed env K V (History env V) where
  toCalled := called hin
  fits := hfits
  own h _ hr := h.own_key (hfits [] (Nat.zero_le _)) hV hr
  signed := hsigned

end History

end Swarm
