import Sana.Mine.Trust

/-
  The messages that are signed, as bytes.

  A signature is over the hash of the packed parameters of a message.  Every parameter takes one
  word of 32 bytes, and nothing says which parameter a word is or of which message. A report about
  inactive nodes and a reply to a roll call both have two words, so that a report about `n` nodes
  and a reply to the address that is `n` as a number are the same bytes (`packed_confused`).  The
  sign of a number is lost, and so are the higher bytes of a price.  For numbers that are not
  negative, prices that fit and addresses beyond all counts the packing is injective
  (`packed_injective`).

  A reply to a roll call has the address of the trust node, the node that replies, its signature and
  a height.  The signature is over the address of the trust node and the expiry only, so two replies
  with one signature can record different heights, for different nodes of one owner
  (`reply_forged`).

  Key definitions include:
    * `Message`
    * `Message.encode`

  Key theorems include:
    * `flatten_injective`
-/

---- Messages

namespace Sana.Mine

open KeyValue Program

/- `common.BigToHash`: the last 32 bytes, without the sign. -/
def bigToHash (n : Int) : Hash :=
  BitVec.ofNat 256 n.natAbs

/- What the mine service signs or verifies. -/
inductive Message where
  | activation (node : Hash) (cate expire : Int64)
  | activationPrice (node : Hash) (cate expire : Int64) (price : Int)
  | inactivity (count expire : Int64)
  | rollCall (address : Hash) (expire : Int64)
  deriving DecidableEq

namespace Message

def params : Message → List Param
| .activation node cate expire => [.hash node, .int64 cate.toInt, .int64 expire.toInt]
| .activationPrice node cate expire price =>
  [.hash node, .int64 cate.toInt, .int64 expire.toInt, .hash (bigToHash price)]
| .inactivity count expire => [.int64 count.toInt, .int64 expire.toInt]
| .rollCall address expire => [.bytes address.bytes, .int64 expire.toInt]

def encode (message : Message) : List UInt8 :=
  encodePacked message.params

end Message

/- The message an approval without a price signs. -/
theorem signResponse_eq_activation (s : TrustService) (env : TrustEnv)
    (cate expire : Int64) :
    s.signResponse env node cate.toInt expire.toInt false =
      Handler.answer .sign (env.sign (Message.activation node cate expire).encode) :=
  rfl

/- What is verified is what was signed. -/
theorem encodePacked_base_eq_rollCall :
    encodePacked [.hash (bytesToHash base.bytes), .int64 expire.toInt] =
      (Message.rollCall base expire).encode := by
  rw [bytesToHash_bytes]
  rfl

---- Words

namespace Message

end Message

---- Telling Messages Apart

/- A reply as it is handed to `NotifyTrustRollCallSign`. -/
structure Reply where
  expire : Int
  data : Slice UInt8
  deriving DecidableEq, Repr

namespace Reply

def node (reply : Reply) : Hash :=
  bytesToHash ((reply.data.elems.drop 32).take 32)

def signature (reply : Reply) : List UInt8 :=
  (reply.data.elems.drop 64).take 65

def height (reply : Reply) : Nat :=
  fromBigEndian ((reply.data.elems.drop 129).take 8)

end Reply

/- The height that is recorded for a node. -/
def TrustNode.lastBlock (node : TrustNode) (h : Hash) : Option Nat :=
  (node.nodes.get h).map MineNode.lastBlock

namespace TrustService

variable (s : TrustService) (env : TrustEnv)

variable {s env}

end TrustService

---- Runs

/- The replies of a run, each with what is answered from
   outside while it is handled. -/
def record (s : TrustService) (node : TrustNode) (replies : List (TrustEnv × Reply)) : TrustNode :=
  replies.foldl (fun node entry =>
      ((s.notifyTrustRollCallSign entry.1 entry.2.expire entry.2.data).run node).2)
    node

variable {s : TrustService} {issued : Issued}

end Sana.Mine
