import Autonomi.SelfEncryption.RandomAccess
import Autonomi.SelfEncryption.Partition
import Autonomi.SelfEncryption.MapCodec
import Autonomi.SelfEncryption.Shrinking
import Autonomi.SelfEncryption.Ranges
import Autonomi.SelfEncryption.StreamLength
import Autonomi.SelfEncryption.AllOrNothing
import Autonomi.Wasm.Download
import Autonomi.Client.PaidOnce
import Autonomi.Client.Intent
import Autonomi.Client.Matching
import Autonomi.Client.CloseGroup
import Autonomi.Client.MerkleSplit
import Autonomi.Protocol.Compat
import Autonomi.Tunnel.Integrity
import Autonomi.Tunnel.Handshake
import Autonomi.Node.Fetch
import Autonomi.Node.Recipient
import Autonomi.Node.Counting
import Autonomi.SelfEncryption.Untrusted
import Autonomi.Upgrade.Monitor
import Autonomi.Daemon.CrashLoop
import Autonomi.Daemon.Exclusive
import Autonomi.Daemon.NoLostUpdate
import Autonomi.Upgrade.Shared
import Autonomi.Client.Candidates
import Autonomi.Node.BoundedLoss
import Autonomi.Daemon.AddNodes
import Autonomi.Daemon.Removal
import Autonomi.SelfEncryption.Encryptions
import Autonomi.Upgrade.Select
import Autonomi.Upgrade.OneFetch
import Autonomi.Client.FileEncryption
import Autonomi.Client.AcceptedPool
import Autonomi.Client.ReadAfterWrite
import Autonomi.Client.Durable
