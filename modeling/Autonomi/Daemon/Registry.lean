/-
  The node registry (`ant-core/src/node/registry.rs`) and what is done to it
  (`ant-core/src/node/mod.rs`).
-/
import Autonomi.Daemon.Supervisor
import Autonomi.Lib.Except

namespace Autonomi.Daemon

open Lib

/-- The components of a path. -/
abbrev Path := List String

inductive PortRange where
  | single (port : UInt16)
  | range (start last : UInt16)
  deriving DecidableEq, Repr

namespace PortRange

/-- `none` where the sum overflows. -/
def len : PortRange → Option UInt16
  | single _ => some 1
  | range start last =>
    let width := if start ≤ last then last - start else 0
    if width.toNat + 1 < 2 ^ 16 then some (width + 1) else none

def portAt (index : ℕ) : PortRange → Option ℕ
  | single port => if index = 0 then some port.toNat else none
  | range start last =>
    let port := start.toNat + index
    if port < 2 ^ 16 ∧ port ≤ last.toNat then some port else none

end PortRange

structure AddNodeOpts where
  count : ℕ
  rewardsAddress : String
  nodePort : Option PortRange
  metricsPort : Option PortRange
  dataDirPath : Option Path
  logDirPath : Option Path
  networkId : ℕ
  bootstrapPeers : List String
  envVariables : List (String × String)
  deriving DecidableEq, Repr

structure NodeConfig where
  id : ℕ
  serviceName : String
  rewardsAddress : String
  dataDir : Path
  logDir : Option Path
  nodePort : Option ℕ
  metricsPort : Option ℕ
  networkId : Option ℕ
  binaryPath : Path
  version : String
  envVariables : String → Option String
  bootstrapPeers : List String

structure NodeRegistry where
  schemaVersion : ℕ
  nodes : ℕ → Option NodeConfig
  nextId : ℕ

/-! ## Validation of a rewards address -/

def isWhitespace (c : Char) : Bool :=
  (9 ≤ c.toNat && c.toNat ≤ 13) || (0x2000 ≤ c.toNat && c.toNat ≤ 0x200a) ||
    [0x20, 0x85, 0xa0, 0x1680, 0x2028, 0x2029, 0x202f, 0x205f, 0x3000].contains c.toNat

def trim (s : List Char) : List Char :=
  ((s.dropWhile isWhitespace).reverse.dropWhile isWhitespace).reverse

def isAsciiHexdigit (c : Char) : Bool :=
  ('0' ≤ c && c ≤ '9') || ('a' ≤ c && c ≤ 'f') || ('A' ≤ c && c ≤ 'F')

/-- The number of bytes. -/
def utf8Len (s : List Char) : ℕ := (s.map Char.utf8Size).sum

def validateRewardsAddress (rewardsAddress : String) : Except Error Unit :=
  let address := trim rewardsAddress.toList
  let text := String.ofList address
  let size := utf8Len address
  if address.isEmpty then
    .error (.invalidRewardsAddress "rewards address cannot be empty")
  else if address.take 2 ≠ ['0', 'x'] ∧ address.take 2 ≠ ['0', 'X'] then
    .error (.invalidRewardsAddress s!"rewards address must start with '0x', got '{text}'")
  else if utf8Len (address.drop 2) ≠ 40 then
    .error (.invalidRewardsAddress
      s!"rewards address must be 42 characters (0x + 40 hex), got {size} characters")
  else if !(address.drop 2).all isAsciiHexdigit then
    .error (.invalidRewardsAddress s!"rewards address contains non-hex characters: '{text}'")
  else .ok ()

/-! ## The registry -/

namespace NodeRegistry

/-- Of a file that does not exist. -/
def empty : NodeRegistry := ⟨1, fun _ => none, 1⟩

def get (registry : NodeRegistry) (id : ℕ) : Except Error NodeConfig :=
  match registry.nodes id with
  | some config => .ok config
  | none => .error (.nodeNotFound id)

/-- What is done through a reference from `get_mut`. -/
def modify (registry : NodeRegistry) (id : ℕ) (f : NodeConfig → NodeConfig) : NodeRegistry :=
  { registry with nodes := Function.update registry.nodes id ((registry.nodes id).map f) }

/-- The counter is one of 32 bits. -/
def add (registry : NodeRegistry) (config : NodeConfig) : NodeRegistry × ℕ :=
  let id := registry.nextId
  ({ registry with
      nextId := (id + 1) % 2 ^ 32
      nodes := Function.update registry.nodes id
        (some { config with id := id, serviceName := s!"node{id}" }) },
    id)

def remove (registry : NodeRegistry) (id : ℕ) : Except Error NodeRegistry :=
  match registry.nodes id with
  | some _ => .ok { registry with nodes := Function.update registry.nodes id none }
  | none => .error (.nodeNotFound id)

def clear (registry : NodeRegistry) : NodeRegistry :=
  { registry with nodes := fun _ => none, nextId := 1 }

end NodeRegistry

/-! ## The mutations -/

def maxNodesPerCall : ℕ := 1000

def binaryName : String := "ant-node"

/-- `defaultDir` is the data directory of the platform. -/
def nodeDataDir (defaultDir : Path) (customPrefix : Option Path) (nodeId : ℕ) : Path :=
  match customPrefix with
  | some dir => dir ++ [s!"node-{nodeId}"]
  | none => defaultDir ++ ["nodes", s!"node-{nodeId}"]

def nodeLogDir (customPrefix : Option Path) (nodeId : ℕ) : Option Path :=
  customPrefix.map fun dir => dir ++ [s!"node-{nodeId}", "logs"]

namespace AddNodeOpts

variable (opts : AddNodeOpts) (defaultDir : Path) (version : String)

def checkRange (range : Option PortRange) : Run Error Unit :=
  match range with
  | some range => do
    let rangeLen ← (range.len : Option UInt16)
    if rangeLen ≠ 1 ∧ rangeLen.toNat ≠ opts.count then
      throw (.portRangeMismatch rangeLen.toNat opts.count)
  | none => pure ()

/-- What `add_nodes` checks before it takes the lock. -/
def check : Run Error Unit := do
  validateRewardsAddress opts.rewardsAddress
  if opts.count > maxNodesPerCall then
    throw (.invalidNodeCount opts.count maxNodesPerCall)
  opts.checkRange opts.nodePort
  opts.checkRange opts.metricsPort

/-- The config of the node number `i`, with a placeholder for its id. -/
def config (i : ℕ) : NodeConfig where
  id := 0
  serviceName := ""
  rewardsAddress := String.ofList (trim opts.rewardsAddress.toList)
  dataDir := nodeDataDir defaultDir opts.dataDirPath 0
  logDir := nodeLogDir opts.logDirPath 0
  nodePort := opts.nodePort.bind (PortRange.portAt i)
  metricsPort := opts.metricsPort.bind (PortRange.portAt i)
  networkId := some opts.networkId
  binaryPath := []
  version := version
  envVariables := opts.envVariables.foldl (fun env e => Function.update env e.1 (some e.2))
    fun _ => none
  bootstrapPeers := opts.bootstrapPeers

def addNode (registry : NodeRegistry) (i : ℕ) : NodeRegistry :=
  match registry.add (opts.config defaultDir version i) with
  | (registry, id) =>
    registry.modify id fun node =>
      { node with
        dataDir := nodeDataDir defaultDir opts.dataDirPath id
        logDir := nodeLogDir opts.logDirPath id
        binaryPath := nodeDataDir defaultDir opts.dataDirPath id ++ [binaryName] }

/-- The node as it is registered. -/
def node (i id : ℕ) : NodeConfig :=
  { opts.config defaultDir version i with
    id := id
    serviceName := s!"node{id}"
    dataDir := nodeDataDir defaultDir opts.dataDirPath id
    logDir := nodeLogDir opts.logDirPath id
    binaryPath := nodeDataDir defaultDir opts.dataDirPath id ++ [binaryName] }

end AddNodeOpts

/-- A mutation of the registry. -/
inductive RegistryOp where
  /-- With the default directory and the version of the binary. -/
  | addNodes (opts : AddNodeOpts) (defaultDir : Path) (version : String)
  | removeNode (nodeId : ℕ)
  | reset
  deriving DecidableEq, Repr

/-- What the call makes of the registry that it has loaded. -/
def RegistryOp.apply (registry : NodeRegistry) : RegistryOp → Except Error NodeRegistry
  | addNodes opts defaultDir version =>
    .ok ((List.range opts.count).foldl (opts.addNode defaultDir version) registry)
  | removeNode nodeId => registry.remove nodeId
  | reset => .ok registry.clear

/-! ## Ids -/

/-- The ids in use are below the counter, and each config has its own. -/
def NodeRegistry.Numbered (r : NodeRegistry) : Prop :=
  ∀ id config, r.nodes id = some config → id < r.nextId ∧ config.id = id

/-- The nodes of `r'` are nodes of `r` or have ids that had not been given. -/
structure NodeRegistry.Extends (r r' : NodeRegistry) : Prop where
  nextId : r.nextId ≤ r'.nextId
  nodes : ∀ id config, r'.nodes id = some config → r.nodes id = some config ∨ r.nextId ≤ id

/-- The counter does not wrap. -/
def RegistryOp.Fits (r : NodeRegistry) : RegistryOp → Prop
  | addNodes opts _ _ => r.nextId + opts.count < 2 ^ 32
  | removeNode _ => True
  | reset => True

instance (r : NodeRegistry) : ∀ op : RegistryOp, Decidable (op.Fits r)
  | .addNodes opts _ _ => inferInstanceAs (Decidable (r.nextId + opts.count < 2 ^ 32))
  | .removeNode _ => .isTrue trivial
  | .reset => .isTrue trivial

variable {r r' r'' : NodeRegistry}

theorem NodeRegistry.numbered_empty : NodeRegistry.empty.Numbered := by
  rintro id config ⟨⟩

theorem NodeRegistry.Extends.refl (r : NodeRegistry) : r.Extends r :=
  ⟨le_rfl, fun _ _ h => Or.inl h⟩

theorem NodeRegistry.Extends.trans (h : r.Extends r') (h' : r'.Extends r'') : r.Extends r'' := by
  refine ⟨h.nextId.trans h'.nextId, fun id config hid => ?_⟩
  rcases h'.nodes id config hid with hid | hid
  · exact h.nodes id config hid
  · exact Or.inr (h.nextId.trans hid)

namespace AddNodeOpts

variable {opts : AddNodeOpts} {defaultDir : Path} {version : String} {i : ℕ}

theorem nextId_addNode (h : r.nextId + 1 < 2 ^ 32) :
    (opts.addNode defaultDir version r i).nextId = r.nextId + 1 := by
  simp only [addNode, NodeRegistry.add, NodeRegistry.modify]
  exact Nat.mod_eq_of_lt h

theorem nodes_addNode_of_ne {id : ℕ} (h : id ≠ r.nextId) :
    (opts.addNode defaultDir version r i).nodes id = r.nodes id := by
  simp [addNode, NodeRegistry.add, NodeRegistry.modify, Function.update_of_ne h]

theorem nodes_addNode_self (opts : AddNodeOpts) (defaultDir : Path) (version : String) (i : ℕ)
    (r : NodeRegistry) :
    (opts.addNode defaultDir version r i).nodes r.nextId =
      some (opts.node defaultDir version i r.nextId) := by
  simp [addNode, node, NodeRegistry.add, NodeRegistry.modify]

theorem extends_addNode (h : r.nextId + 1 < 2 ^ 32) :
    r.Extends (opts.addNode defaultDir version r i) := by
  refine ⟨by rw [nextId_addNode h]; omega, fun id config hid => ?_⟩
  by_cases heq : id = r.nextId
  · exact Or.inr heq.ge
  · rw [nodes_addNode_of_ne heq] at hid
    exact Or.inl hid

theorem numbered_addNode (hr : r.Numbered) (h : r.nextId + 1 < 2 ^ 32) :
    (opts.addNode defaultDir version r i).Numbered := by
  intro id config hid
  rw [nextId_addNode h]
  by_cases heq : id = r.nextId
  · subst heq
    rw [nodes_addNode_self] at hid
    obtain rfl := Option.some.inj hid
    exact ⟨Nat.lt_succ_self _, rfl⟩
  · rw [nodes_addNode_of_ne heq] at hid
    exact ⟨(hr id config hid).1.trans (Nat.lt_succ_self _), (hr id config hid).2⟩

theorem foldl_addNode (hr : r.Numbered) (l : List ℕ) (h : r.nextId + l.length < 2 ^ 32) :
    r.Extends (l.foldl (opts.addNode defaultDir version) r) ∧
      (l.foldl (opts.addNode defaultDir version) r).Numbered := by
  induction l generalizing r with
  | nil => exact ⟨.refl r, hr⟩
  | cons i l ih =>
    rw [List.length_cons] at h
    have hnext : r.nextId + 1 < 2 ^ 32 := by omega
    have hnum : (opts.addNode defaultDir version r i).Numbered := numbered_addNode hr hnext
    have hlen : (opts.addNode defaultDir version r i).nextId + l.length < 2 ^ 32 := by
      rw [nextId_addNode hnext]
      omega
    obtain ⟨hext, hnum⟩ := ih hnum hlen
    exact ⟨(extends_addNode hnext).trans hext, hnum⟩

end AddNodeOpts

namespace RegistryOp

variable {op : RegistryOp}

theorem numbered_apply (hr : r.Numbered) (hfits : op.Fits r) (h : op.apply r = .ok r') :
    r'.Numbered := by
  cases op with
  | addNodes opts defaultDir version =>
    obtain rfl := Except.ok.inj h
    exact (AddNodeOpts.foldl_addNode hr _ (by rwa [List.length_range])).2
  | removeNode nodeId =>
    simp only [apply, NodeRegistry.remove] at h
    split at h
    · obtain rfl := Except.ok.inj h
      intro id config hid
      by_cases heq : id = nodeId
      · subst heq
        simp at hid
      · simp only [Function.update_of_ne heq] at hid
        exact hr id config hid
    · cases h
  | reset =>
    obtain rfl := Except.ok.inj h
    rintro id config ⟨⟩

theorem extends_apply (hr : r.Numbered) (hfits : op.Fits r) (hop : op ≠ .reset)
    (h : op.apply r = .ok r') : r.Extends r' := by
  cases op with
  | addNodes opts defaultDir version =>
    obtain rfl := Except.ok.inj h
    exact (AddNodeOpts.foldl_addNode hr _ (by rwa [List.length_range])).1
  | removeNode nodeId =>
    simp only [apply, NodeRegistry.remove] at h
    split at h
    · obtain rfl := Except.ok.inj h
      refine ⟨le_rfl, fun id config hid => ?_⟩
      by_cases heq : id = nodeId
      · subst heq
        simp at hid
      · simp only [Function.update_of_ne heq] at hid
        exact Or.inl hid
    · cases h
  | reset => exact absurd rfl hop

end RegistryOp

end Autonomi.Daemon
