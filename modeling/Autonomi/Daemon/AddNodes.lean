/-
  One call of `add_nodes` (`ant-core/src/node/mod.rs`), and what it registers.
-/
import Autonomi.Daemon.NoLostUpdate
import Autonomi.Lib.Act

namespace Autonomi.Daemon

open Lib

/-- What the call meets on its machine. -/
structure Machine where
  defaultDir : Path
  /-- The version of the binary. -/
  resolveBinary : Except Error String
  /-- Whether the lock is taken and the file read. -/
  loadLocked : Except Error Unit
  /-- The directories of a node, and its copy of the binary. -/
  createDirs : NodeConfig → Except Error Unit
  save : NodeRegistry → Except Error Unit

namespace AddNodeOpts

variable (M : Machine) (opts : AddNodeOpts) (version : String)

/-- `none` where the counter overflows. -/
def checkedAddNode (registry : NodeRegistry) (i : ℕ) : Option NodeRegistry :=
  if registry.nextId + 1 < 2 ^ 32 then some (opts.addNode M.defaultDir version registry i) else none

def addStep (s : NodeRegistry × List NodeConfig) (i : ℕ) :
    Run Error (NodeRegistry × List NodeConfig) := do
  let registry ← checkedAddNode M opts version s.1 i
  let node ← registry.get s.1.nextId
  M.createDirs node
  pure (registry, s.2 ++ [node])

/-- The state is the registry in the file. -/
def addNodes : Act NodeRegistry Error (List NodeConfig) := do
  Act.ofRun opts.check
  let version ← Act.ofExcept M.resolveBinary
  Act.ofExcept M.loadLocked
  let registry ← get
  let (registry, nodesAdded) ← Act.ofRun
    ((List.range opts.count).foldlM (addStep M opts version) (registry, []))
  Act.ofExcept (M.save registry)
  set registry
  pure nodesAdded

end AddNodeOpts

/-! ## What was asked -/

/-- The ports are those of the range, one for each of `count` nodes. -/
def PortsOf (range : Option PortRange) (count : ℕ) (ports : List (Option ℕ)) : Prop :=
  ∀ start last, range = some (.range start last) →
    last.toNat + 1 = start.toNat + count ∧ ports = (List.range count).map fun i => some (start.toNat + i)

/-- `r'` has `count` nodes more than the registry after the commits, as they were asked for. -/
structure Registered (opts : AddNodeOpts) (commits : List (Commit × NodeRegistry))
    (r' : NodeRegistry) (added : List NodeConfig) : Prop where
  count : added.length = opts.count
  nextId : r'.nextId = (newest .empty commits).nextId + opts.count
  node : ∀ i node, added[i]? = some node →
    node.id = (newest .empty commits).nextId + i ∧ node.serviceName = s!"node{node.id}" ∧
      r'.nodes node.id = some node
  fresh : ∀ node ∈ added, ∀ e ∈ commits.takeWhile fun e => e.1.op ≠ .reset, e.2.nodes node.id = none
  dirs : (added.map NodeConfig.dataDir).Nodup
  others : ∀ id, id ∉ added.map NodeConfig.id → r'.nodes id = (newest .empty commits).nodes id
  nodePort : PortsOf opts.nodePort opts.count (added.map NodeConfig.nodePort)
  metricsPort : PortsOf opts.metricsPort opts.count (added.map NodeConfig.metricsPort)

/-- Without an overflow the call registers what was asked, or leaves the file as it was. -/
def Registers (M : Machine) (opts : AddNodeOpts) (commits : List (Commit × NodeRegistry)) : Prop :=
  match AddNodeOpts.addNodes M opts (newest .empty commits) with
  | none => False
  | some (.error _, r') => r' = newest .empty commits
  | some (.ok added, r') => Registered opts commits r' added

/-- A range with as many ports as there are nodes. -/
def Exact (count : ℕ) : Option PortRange → Prop
  | some (.range start last) => last.toNat + 1 = start.toNat + count
  | _ => True

/-- The length of the range is neither one nor the number of the nodes. -/
def Refused (count : ℕ) (range : Option PortRange) : Prop :=
  ∃ p ∈ range, ∃ len ∈ p.len, len ≠ 1 ∧ len.toNat ≠ count

/-- The length of the range does not overflow. -/
def Measured (range : Option PortRange) : Prop := ∀ p ∈ range, p.len.isSome

instance (count : ℕ) : ∀ range : Option PortRange, Decidable (Exact count range)
  | some (.range start last) => inferInstanceAs (Decidable (last.toNat + 1 = start.toNat + count))
  | some (.single _) | none => .isTrue trivial

instance (count : ℕ) (range : Option PortRange) : Decidable (Refused count range) :=
  inferInstanceAs (Decidable (∃ p ∈ range, ∃ len ∈ p.len, len ≠ 1 ∧ len.toNat ≠ count))

instance (range : Option PortRange) : Decidable (Measured range) :=
  inferInstanceAs (Decidable (∀ p ∈ range, p.len.isSome))

/-- When `add_nodes` does what it is asked to. -/
def Answerable (opts : AddNodeOpts) (r : NodeRegistry) : Prop :=
  (∃ e, validateRewardsAddress opts.rewardsAddress = .error e) ∨ opts.count > maxNodesPerCall ∨
    Measured opts.nodePort ∧ (Refused opts.count opts.nodePort ∨
      Measured opts.metricsPort ∧ (Refused opts.count opts.metricsPort ∨
        Exact opts.count opts.nodePort ∧ Exact opts.count opts.metricsPort ∧
          r.nextId + opts.count < 2 ^ 32))

/-! ## The checks -/

namespace AddNodeOpts

variable {M : Machine} {opts : AddNodeOpts} {version : String} {range : Option PortRange}

theorem checkRange_cases :
    opts.checkRange range = none ∧ ¬ Measured range ∨
      (∃ e, opts.checkRange range = some (.error e)) ∧ Measured range ∧ Refused opts.count range ∨
      opts.checkRange range = some (.ok ()) ∧ Measured range ∧ ¬ Refused opts.count range := by
  cases range with
  | none => exact Or.inr (Or.inr ⟨rfl, by simp [Measured], by simp [Refused]⟩)
  | some p =>
    cases hlen : p.len with
    | none => exact Or.inl ⟨by simp [checkRange, hlen]; rfl, by simp [Measured, hlen]⟩
    | some len =>
      by_cases href : len ≠ 1 ∧ len.toNat ≠ opts.count
      · refine Or.inr (Or.inl ⟨⟨.portRangeMismatch len.toNat opts.count, ?_⟩, ?_, ?_⟩)
        · simp only [checkRange, hlen]
          change (if len ≠ 1 ∧ len.toNat ≠ opts.count then _ else _) = _
          rw [if_pos href]
          rfl
        · simp [Measured, hlen]
        · simpa [Refused, hlen] using href
      · refine Or.inr (Or.inr ⟨?_, ?_, ?_⟩)
        · simp only [checkRange, hlen]
          change (if len ≠ 1 ∧ len.toNat ≠ opts.count then _ else _) = _
          rw [if_neg href]
          rfl
        · simp [Measured, hlen]
        · simpa [Refused, hlen] using href

/-- Past the address and the count, `check` is the checks of the two ranges. -/
theorem check_eq (haddress : validateRewardsAddress opts.rewardsAddress = .ok ())
    (hcount : opts.count ≤ maxNodesPerCall) :
    opts.check = opts.checkRange opts.nodePort >>= fun _ => opts.checkRange opts.metricsPort := by
  rw [check, haddress]
  change (if opts.count > maxNodesPerCall then _ else _) = _
  rw [if_neg (by omega)]

theorem check_cases (r : NodeRegistry) :
    opts.check = none ∧ ¬ Answerable opts r ∨
      (∃ e, opts.check = some (.error e)) ∧ Answerable opts r ∨
      opts.check = some (.ok ()) ∧ (Answerable opts r ↔ Exact opts.count opts.nodePort ∧
        Exact opts.count opts.metricsPort ∧ r.nextId + opts.count < 2 ^ 32) := by
  cases haddress : validateRewardsAddress opts.rewardsAddress with
  | error e =>
    exact Or.inr (Or.inl ⟨⟨e, by rw [check, haddress]; rfl⟩, Or.inl ⟨e, haddress⟩⟩)
  | ok u =>
    have hvalid : ¬ ∃ e, validateRewardsAddress opts.rewardsAddress = .error e := by
      rintro ⟨e, he⟩
      rw [haddress] at he
      cases he
    by_cases hcount : opts.count > maxNodesPerCall
    · refine Or.inr (Or.inl ⟨⟨.invalidNodeCount opts.count maxNodesPerCall, ?_⟩,
        Or.inr (Or.inl hcount)⟩)
      rw [check, haddress]
      change (if opts.count > maxNodesPerCall then _ else _) = _
      rw [if_pos hcount]
      rfl
    · rw [check_eq haddress (not_lt.1 hcount)]
      simp only [Answerable, hvalid, hcount, false_or]
      rcases @checkRange_cases opts opts.nodePort with
        ⟨h, hnot⟩ | ⟨⟨e, h⟩, hmeasured, hrefused⟩ | ⟨h, hmeasured, hallowed⟩
      · exact Or.inl ⟨by rw [h]; rfl, fun hans => hnot hans.1⟩
      · exact Or.inr (Or.inl ⟨⟨e, by rw [h]; rfl⟩, hmeasured, Or.inl hrefused⟩)
      · rw [h]
        change (opts.checkRange opts.metricsPort = none ∧ _) ∨
          (∃ e, opts.checkRange opts.metricsPort = some (.error e)) ∧ _ ∨
            opts.checkRange opts.metricsPort = some (.ok ()) ∧ _
        simp only [hmeasured, hallowed, true_and, false_or]
        rcases @checkRange_cases opts opts.metricsPort with
          ⟨h', hnot⟩ | ⟨⟨e, h'⟩, hmeasured', hrefused⟩ | ⟨h', hmeasured', hallowed'⟩
        · exact Or.inl ⟨h', fun hans => hnot hans.1⟩
        · exact Or.inr (Or.inl ⟨⟨e, h'⟩, hmeasured', Or.inl hrefused⟩)
        · refine Or.inr (Or.inr ⟨h', ?_⟩)
          simp only [hmeasured', hallowed', true_and, false_or]

/-! ## The loop -/

variable {r : NodeRegistry} {n : ℕ} {s : NodeRegistry × List NodeConfig}

/-- `n` nodes are added to `r`. -/
structure AddedUpTo (M : Machine) (opts : AddNodeOpts) (version : String) (r : NodeRegistry)
    (n : ℕ) (s : NodeRegistry × List NodeConfig) : Prop where
  fits : r.nextId + n < 2 ^ 32
  nextId : s.1.nextId = r.nextId + n
  added : s.2 = (List.range n).map fun i => opts.node M.defaultDir version i (r.nextId + i)
  nodes : ∀ i < n,
    s.1.nodes (r.nextId + i) = some (opts.node M.defaultDir version i (r.nextId + i))
  others : ∀ id, id < r.nextId ∨ r.nextId + n ≤ id → s.1.nodes id = r.nodes id

theorem addedUpTo_zero (h : r.nextId < 2 ^ 32) : AddedUpTo M opts version r 0 (r, []) :=
  ⟨h, rfl, rfl, fun _ hi => absurd hi (Nat.not_lt_zero _), fun _ _ => rfl⟩

theorem AddedUpTo.succ (h : AddedUpTo M opts version r n s) (hfits : r.nextId + n + 1 < 2 ^ 32) :
    AddedUpTo M opts version r (n + 1) (opts.addNode M.defaultDir version s.1 n,
      s.2 ++ [opts.node M.defaultDir version n (r.nextId + n)]) := by
  have hnext : s.1.nextId + 1 < 2 ^ 32 := by rwa [h.nextId]
  refine ⟨hfits, ?_, ?_, fun i hi => ?_, fun id hid => ?_⟩
  · rw [nextId_addNode hnext, h.nextId, Nat.add_assoc]
  · rw [List.range_succ, List.map_append, ← h.added]
    rfl
  · rcases Nat.lt_succ_iff_lt_or_eq.1 hi with hi | rfl
    · rw [nodes_addNode_of_ne (by rw [h.nextId]; omega), h.nodes i hi]
    · rw [← h.nextId]
      exact nodes_addNode_self opts M.defaultDir version i s.1
  · rw [nodes_addNode_of_ne (by rw [h.nextId]; omega)]
    exact h.others id (by omega)

theorem addStep_cases (h : AddedUpTo M opts version r n s) :
    addStep M opts version s n = none ∧ 2 ^ 32 ≤ r.nextId + n + 1 ∨
      (∃ e node, addStep M opts version s n = some (.error e) ∧ M.createDirs node = .error e) ∨
      ∃ s', addStep M opts version s n = some (.ok s') ∧
        AddedUpTo M opts version r (n + 1) s' := by
  by_cases hfits : r.nextId + n + 1 < 2 ^ 32
  · have hadd : checkedAddNode M opts version s.1 n =
        some (opts.addNode M.defaultDir version s.1 n) := by
      rw [checkedAddNode, h.nextId, if_pos hfits]
    have hget : (opts.addNode M.defaultDir version s.1 n).get s.1.nextId =
        .ok (opts.node M.defaultDir version n (r.nextId + n)) := by
      rw [NodeRegistry.get, nodes_addNode_self, h.nextId]
    cases hdirs : M.createDirs (opts.node M.defaultDir version n (r.nextId + n)) with
    | error e =>
      refine Or.inr (Or.inl ⟨e, _, ?_, hdirs⟩)
      rw [addStep, hadd]
      change ((opts.addNode M.defaultDir version s.1 n).get s.1.nextId : Run Error _) >>= _ = _
      rw [hget]
      change (M.createDirs _ : Run Error _) >>= _ = _
      rw [hdirs]
      rfl
    | ok u =>
      refine Or.inr (Or.inr ⟨_, ?_, h.succ hfits⟩)
      rw [addStep, hadd]
      change ((opts.addNode M.defaultDir version s.1 n).get s.1.nextId : Run Error _) >>= _ = _
      rw [hget]
      change (M.createDirs _ : Run Error _) >>= _ = _
      rw [hdirs]
      rfl
  · refine Or.inl ⟨?_, not_lt.1 hfits⟩
    rw [addStep, checkedAddNode, h.nextId, if_neg hfits]
    rfl

theorem foldlM_addStep (hr : r.nextId < 2 ^ 32) (n : ℕ) :
    (List.range n).foldlM (addStep M opts version) (r, []) = none ∧ 2 ^ 32 ≤ r.nextId + n ∨
      (∃ e node, (List.range n).foldlM (addStep M opts version) (r, []) = some (.error e) ∧
        M.createDirs node = .error e) ∨
      ∃ s, (List.range n).foldlM (addStep M opts version) (r, []) = some (.ok s) ∧
        AddedUpTo M opts version r n s := by
  induction n with
  | zero => exact Or.inr (Or.inr ⟨_, rfl, addedUpTo_zero hr⟩)
  | succ n ih =>
    rw [List.range_succ, List.foldlM_append]
    rcases ih with ⟨h, hwrap⟩ | ⟨e, node, h, hdirs⟩ | ⟨s, h, hadded⟩
    · exact Or.inl ⟨by rw [h]; rfl, hwrap.trans (Nat.le_succ _)⟩
    · exact Or.inr (Or.inl ⟨e, node, by rw [h]; rfl, hdirs⟩)
    · rw [h]
      change ([n].foldlM (addStep M opts version) s = none ∧ _) ∨
        (∃ e node, [n].foldlM (addStep M opts version) s = some (.error e) ∧ _) ∨
          ∃ s', [n].foldlM (addStep M opts version) s = some (.ok s') ∧ _
      rw [List.foldlM_cons]
      rcases addStep_cases hadded with ⟨h, hwrap⟩ | ⟨e, node, h, hdirs⟩ | ⟨s', h, hadded⟩
      · exact Or.inl ⟨by rw [h]; rfl, hwrap⟩
      · exact Or.inr (Or.inl ⟨e, node, by rw [h]; rfl, hdirs⟩)
      · exact Or.inr (Or.inr ⟨s', by rw [h]; rfl, hadded⟩)

/-! ## The call -/

theorem addNodes_of_check_none (h : opts.check = none) : addNodes M opts r = none := by
  rw [addNodes, Act.bind_of_none (by rw [h]; rfl)]

theorem addNodes_of_check_error {e : Error} (h : opts.check = some (.error e)) :
    addNodes M opts r = some (.error e, r) := by
  rw [addNodes, Act.bind_of_error (by rw [h]; rfl)]

/-- Past the checks. -/
theorem addNodes_cases (hcheck : opts.check = some (.ok ())) :
    (∃ e, addNodes M opts r = some (.error e, r)) ∧
        ((∃ e, M.resolveBinary = .error e) ∨ ∃ e, M.loadLocked = .error e) ∨
      ∃ version, addNodes M opts r =
        match (List.range opts.count).foldlM (addStep M opts version) (r, []) with
        | none => none
        | some (.error e) => some (.error e, r)
        | some (.ok s) =>
          match M.save s.1 with
          | .error e => some (.error e, r)
          | .ok () => some (.ok s.2, s.1) := by
  rw [addNodes, Act.bind_of_ok (Act.ofRun_run hcheck)]
  cases hbinary : M.resolveBinary with
  | error e => exact Or.inl ⟨⟨e, Act.bind_of_error rfl⟩, Or.inl ⟨e, rfl⟩⟩
  | ok version =>
    rw [Act.bind_of_ok (a := version) rfl]
    cases hload : M.loadLocked with
    | error e => exact Or.inl ⟨⟨e, Act.bind_of_error rfl⟩, Or.inr ⟨e, rfl⟩⟩
    | ok u =>
      refine Or.inr ⟨version, ?_⟩
      rw [Act.bind_of_ok (a := ()) rfl, Act.get_bind]
      cases hloop : (List.range opts.count).foldlM (addStep M opts version) (r, []) with
      | none => exact Act.bind_of_none rfl
      | some res =>
        cases res with
        | error e => exact Act.bind_of_error rfl
        | ok s =>
          rw [Act.bind_of_ok (Act.ofRun_run rfl)]
          change ((Act.ofExcept (M.save s.1) : Act NodeRegistry Error Unit) >>= fun _ =>
            (set s.1 : Act NodeRegistry Error PUnit) >>= fun _ => pure s.2) r =
              match M.save s.1 with
              | .error e => some (.error e, r)
              | .ok () => some (.ok s.2, s.1)
          cases hsave : M.save s.1 with
          | error e => exact Act.bind_of_error rfl
          | ok u => exact Act.bind_of_ok rfl

/-! ## What is registered -/

theorem nodeDataDir_injective (defaultDir : Path) (customPrefix : Option Path) :
    Function.Injective (nodeDataDir defaultDir customPrefix) := by
  have hname : Function.Injective fun id : ℕ => s!"node-{id}" := fun i j h =>
    Nat.repr_injective (String.append_right_inj _ |>.1 h)
  intro i j h
  cases customPrefix with
  | none =>
    have h : ["nodes", s!"node-{i}"] = ["nodes", s!"node-{j}"] := List.append_cancel_left h
    exact hname (List.cons.inj (List.cons.inj h).2).1
  | some dir =>
    have h : [s!"node-{i}"] = [s!"node-{j}"] := List.append_cancel_left h
    exact hname (List.cons.inj h).1

theorem portsOf_of_exact {count : ℕ} (h : Exact count range) :
    PortsOf range count ((List.range count).map fun i => range.bind (PortRange.portAt i)) := by
  rintro start last rfl
  have h : last.toNat + 1 = start.toNat + count := h
  have hlast : last.toNat < 2 ^ 16 := last.toNat_lt
  refine ⟨h, List.map_congr_left fun i hi => ?_⟩
  have hi : i < count := List.mem_range.1 hi
  change (if start.toNat + i < 2 ^ 16 ∧ start.toNat + i ≤ last.toNat then _ else _) = _
  rw [if_pos ⟨by omega, by omega⟩]

theorem exact_of_portsOf {count : ℕ} {ports : List (Option ℕ)} (h : PortsOf range count ports) :
    Exact count range := by
  match range, h with
  | none, _ => trivial
  | some (.single _), _ => trivial
  | some (.range start last), h => exact (h start last rfl).1

theorem nextId_lt_apply {op : RegistryOp} {r' : NodeRegistry} (hr : r.nextId < 2 ^ 32)
    (h : op.apply r = .ok r') : r'.nextId < 2 ^ 32 := by
  cases op with
  | addNodes opts defaultDir version =>
    obtain rfl := Except.ok.inj h
    exact List.foldlRecOn (motive := fun r : NodeRegistry => r.nextId < 2 ^ 32) _ _ hr
      fun _ _ _ _ => Nat.mod_lt _ (by decide)
  | removeNode nodeId =>
    simp only [RegistryOp.apply, NodeRegistry.remove] at h
    split at h
    · obtain rfl := Except.ok.inj h
      exact hr
    · cases h
  | reset =>
    obtain rfl := Except.ok.inj h
    exact Nat.one_lt_two_pow (by decide)

theorem nextId_lt_newest {commits : List (Commit × NodeRegistry)}
    (hreach : Serial Commit.Makes .empty commits) : (newest .empty commits).nextId < 2 ^ 32 :=
  hreach.invariant (I := fun r => r.nextId < 2 ^ 32) (by decide) fun _ _ _ hr hmakes =>
    nextId_lt_apply hr hmakes.1

theorem AddedUpTo.registered {commits : List (Commit × NodeRegistry)}
    (hreach : Serial Commit.Makes .empty commits)
    (h : AddedUpTo M opts version (newest .empty commits) opts.count s)
    (hnode : Exact opts.count opts.nodePort) (hmetrics : Exact opts.count opts.metricsPort) :
    Registered opts commits s.1 s.2 where
  count := by rw [h.added, List.length_map, List.length_range]
  nextId := h.nextId
  node := by
    intro i node hi
    rw [h.added, List.getElem?_map, Option.map_eq_some_iff] at hi
    obtain ⟨j, hj, rfl⟩ := hi
    obtain ⟨hcount, rfl⟩ := List.getElem?_eq_some_iff.1 hj
    rw [List.length_range] at hcount
    rw [List.getElem_range]
    exact ⟨rfl, rfl, h.nodes i hcount⟩
  fresh := by
    rw [h.added]
    intro node hnode e he
    obtain ⟨i, -, rfl⟩ := List.mem_map.1 hnode
    refine Option.eq_none_iff_forall_not_mem.2 fun config hid => ?_
    have : (newest .empty commits).nextId + i < (newest .empty commits).nextId :=
      lt_nextId hreach e he _ config hid
    omega
  dirs := by
    rw [h.added, List.map_map]
    refine List.Nodup.map (fun i j hij => ?_) List.nodup_range
    exact Nat.add_left_cancel (nodeDataDir_injective _ _ hij)
  others := by
    intro id hid
    refine h.others id ?_
    by_contra hnot
    obtain ⟨i, rfl⟩ := Nat.exists_eq_add_of_le (not_lt.1 (not_or.1 hnot).1)
    refine hid ?_
    rw [h.added, List.map_map]
    exact List.mem_map.2 ⟨i, List.mem_range.2 (by omega), rfl⟩
  nodePort := by
    rw [h.added, List.map_map]
    exact portsOf_of_exact hnode
  metricsPort := by
    rw [h.added, List.map_map]
    exact portsOf_of_exact hmetrics

end AddNodeOpts

/-- A machine on which nothing fails. -/
def Machine.healthy : Machine where
  defaultDir := ["data", "ant"]
  resolveBinary := .ok "0.1.0"
  loadLocked := .ok ()
  createDirs := fun _ => .ok ()
  save := fun _ => .ok ()

section Main

variable {opts : AddNodeOpts} {commits : List (Commit × NodeRegistry)}

theorem registers_of_answerable (hreach : Serial Commit.Makes .empty commits)
    (h : Answerable opts (newest .empty commits)) (M : Machine) : Registers M opts commits := by
  rw [Registers]
  rcases opts.check_cases (newest .empty commits) with ⟨-, hnot⟩ | ⟨⟨e, hcheck⟩, -⟩ | ⟨hcheck, hiff⟩
  · exact absurd h hnot
  · rw [AddNodeOpts.addNodes_of_check_error hcheck]
  · obtain ⟨hnode, hmetrics, hfits⟩ := hiff.1 h
    rcases AddNodeOpts.addNodes_cases (M := M) (r := newest .empty commits) hcheck with
      ⟨⟨e, hcall⟩, -⟩ | ⟨version, hcall⟩
    · rw [hcall]
    · rw [hcall]
      rcases AddNodeOpts.foldlM_addStep (AddNodeOpts.nextId_lt_newest hreach) opts.count with
        ⟨-, hwrap⟩ | ⟨e, -, hloop, -⟩ | ⟨s, hloop, hadded⟩
      · omega
      · rw [hloop]
      · rw [hloop]
        cases hsave : M.save s.1 with
        | error e => simp only [hsave]
        | ok u =>
          simp only [hsave]
          exact hadded.registered hreach hnode hmetrics

theorem answerable_of_registers (hreach : Serial Commit.Makes .empty commits)
    (h : Registers .healthy opts commits) : Answerable opts (newest .empty commits) := by
  rw [Registers] at h
  rcases opts.check_cases (newest .empty commits) with ⟨hcheck, -⟩ | ⟨-, hans⟩ | ⟨hcheck, hiff⟩
  · rw [AddNodeOpts.addNodes_of_check_none hcheck] at h
    exact h.elim
  · exact hans
  · rcases AddNodeOpts.addNodes_cases (M := .healthy) (r := newest .empty commits) hcheck with
      ⟨-, ⟨e, he⟩ | ⟨e, he⟩⟩ | ⟨version, hcall⟩
    · cases he
    · cases he
    · rw [hcall] at h
      have hcases := @AddNodeOpts.foldlM_addStep .healthy opts version _
        (AddNodeOpts.nextId_lt_newest hreach) opts.count
      rcases hcases with ⟨hloop, -⟩ | ⟨e, node, -, hdirs⟩ | ⟨s, hloop, hadded⟩
      · rw [hloop] at h
        exact h.elim
      · cases hdirs
      · rw [hloop] at h
        have h : Registered opts commits s.1 s.2 := h
        exact hiff.2 ⟨AddNodeOpts.exact_of_portsOf h.nodePort,
          AddNodeOpts.exact_of_portsOf h.metricsPort, hadded.fits⟩

/-- **The call registers what was asked exactly when it is refused in the checks, or the ranges have
    as many ports as there are nodes and the counter does not overflow.** -/
theorem registers_iff (hreach : Serial Commit.Makes .empty commits) :
    (∀ M, Registers M opts commits) ↔ Answerable opts (newest .empty commits) :=
  ⟨fun h => answerable_of_registers hreach (h .healthy), registers_of_answerable hreach⟩

end Main

/-- `count` nodes, with the ports of a range. -/
def onPorts (count : ℕ) (start last : UInt16) : AddNodeOpts where
  count := count
  rewardsAddress := String.ofList (['0', 'x'] ++ List.replicate 40 'a')
  nodePort := some (.range start last)
  metricsPort := none
  dataDirPath := none
  logDirPath := none
  networkId := 1
  bootstrapPeers := []
  envVariables := []

def addTwoNodes : Commit := ⟨0, daemon, .addNodes (onPorts 2 3 4) ["data", "ant"] "0.1.0"⟩

def removeFirst : Commit := ⟨1, daemon, .removeNode 1⟩

/-- Three more nodes, after one of two has been removed. -/
theorem registers_iff_three : ∃ r r', Serial Commit.Makes .empty [(removeFirst, r'), (addTwoNodes, r)] ∧
    (r'.nodes 1 = none ∧ (r'.nodes 2).isSome ∧ r'.nextId = 3) ∧
    Registers .healthy (onPorts 3 5 7) [(removeFirst, r'), (addTwoNodes, r)] := by
  obtain ⟨r, hr, r', hr', hnodes⟩ : ∃ r ∈ (addTwoNodes.op.apply .empty).toOption,
      ∃ r' ∈ (removeFirst.op.apply r).toOption,
        r'.nodes 1 = none ∧ (r'.nodes 2).isSome ∧ r'.nextId = 3 := by decide
  have hfits : addTwoNodes.op.Fits .empty := by decide
  have hserial : Serial Commit.Makes .empty [(removeFirst, r'), (addTwoNodes, r)] :=
    .cons (.cons .nil ⟨eq_ok_of_toOption hr, hfits⟩) ⟨eq_ok_of_toOption hr', trivial⟩
  refine ⟨r, r', hserial, hnodes, (registers_iff hserial).2 (.inr (.inr ?_)) .healthy⟩
  refine ⟨by decide, .inr ⟨by decide, .inr ⟨by decide, by decide, ?_⟩⟩⟩
  rw [newest_cons, hnodes.2.2]
  decide

theorem validateRewardsAddress_onPorts (count : ℕ) (start last : UInt16) :
    validateRewardsAddress (onPorts count start last).rewardsAddress = .ok () := by
  change validateRewardsAddress (String.ofList _) = _
  decide +kernel

/-- Three nodes on one port, and the ports of `u16`. -/
theorem not_registers :
    Serial Commit.Makes .empty [] ∧ ¬ Registers .healthy (onPorts 3 5 5) [] ∧
      ¬ Registers .healthy (onPorts 3 0 65535) [] := by
  refine ⟨.nil, fun h => ?_, fun h => ?_⟩
  · rcases answerable_of_registers .nil h with ⟨e, he⟩ | h | h
    · rw [validateRewardsAddress_onPorts] at he
      cases he
    · revert h
      decide
    · revert h
      decide
  · rcases answerable_of_registers .nil h with ⟨e, he⟩ | h | h
    · rw [validateRewardsAddress_onPorts] at he
      cases he
    · revert h
      decide
    · revert h
      decide

end Autonomi.Daemon
