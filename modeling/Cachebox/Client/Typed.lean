import Cachebox.Client.Native
import Cachebox.Protocol.Request

/-!
# The methods of the Rust client

Each method of `NativeClient` sends one request and reads its result off the payload of the
response. `callMethod` is the method that sends a given request, with the results of all methods in
one type.
-/

namespace Cachebox
open Protocol

inductive GetResult where
  | hit (value : Bytes)
  | stale (value : Bytes)
  | miss
  deriving DecidableEq, Repr

namespace GetResult

def tryFrom : ResponsePayload → Except ClientError GetResult
  | .hit value => .ok (.hit value)
  | .stale value => .ok (.stale value)
  | .miss => .ok .miss
  | _ => .error (.unexpectedResponse "get did not return hit, stale, or miss")

def ofBatchItem : BatchItem → GetResult
  | .hit value => .hit value
  | .stale value => .stale value
  | .miss => .miss

end GetResult

inductive LeaseStartResult where
  | hit (value : Bytes)
  | stale (value : Bytes)
  | leaseGranted (leaseToken : String) (staleValue : Option Bytes)
  | leaseDenied
  deriving DecidableEq, Repr

def LeaseStartResult.tryFrom : ResponsePayload → Except ClientError LeaseStartResult
  | .hit value => .ok (.hit value)
  | .stale value => .ok (.stale value)
  | .leaseGranted leaseToken staleValue => .ok (.leaseGranted leaseToken staleValue)
  | .leaseDenied => .ok .leaseDenied
  | _ => .error (.unexpectedResponse "lease start did not return a lease state")

namespace NativeClient

/-- What is left of a call when its request has returned: the `?` operator, and then `parse`. -/
def thenParse {α β : Type} (parse : α → Except ClientError β) :
    Option (Except ClientError α × NativeClient) → Option (Except ClientError β × NativeClient) :=
  Option.map fun (result, c) => (result >>= parse, c)

def stored (message : String) : ResponsePayload → Except ClientError UInt32
  | .stored evicted => .ok evicted
  | _ => .error (.unexpectedResponse message)

def deleted : ResponsePayload → Except ClientError Bool
  | .deleted removed => .ok removed
  | _ => .error (.unexpectedResponse "delete did not return deleted")

def batchItems : ResponsePayload → Except ClientError (List BatchItem)
  | .batchGet items => .ok items
  | _ => .error (.unexpectedResponse "batch get did not return batch")

def invalidated : ResponsePayload → Except ClientError UInt32
  | .invalidated removed => .ok removed
  | _ => .error (.unexpectedResponse "tag invalidation did not return invalidated")

section
variable (c : NativeClient) (ns : String) (key : Bytes) (x : Exchange)

def getRaw : Option (Except ClientError ResponsePayload × NativeClient) :=
  c.request .get (.get ns key) x

def get : Option (Except ClientError GetResult × NativeClient) :=
  thenParse GetResult.tryFrom (c.getRaw ns key x)

def put (metadata : Metadata) (value : Bytes) :
    Option (Except ClientError UInt32 × NativeClient) :=
  thenParse (stored "put did not return stored") (c.request .put (.put ns key metadata value) x)

def delete : Option (Except ClientError Bool × NativeClient) :=
  thenParse deleted (c.request .delete (.delete ns key) x)

def batchGetRaw (keys : List Bytes) :
    Option (Except ClientError (List BatchItem) × NativeClient) :=
  thenParse batchItems (c.request .batchGet (.batchGet ns keys) x)

def batchGet (keys : List Bytes) : Option (Except ClientError (List GetResult) × NativeClient) :=
  thenParse (fun items => .ok (items.map .ofBatchItem)) (c.batchGetRaw ns x keys)

def invalidateTag (tag : String) : Option (Except ClientError UInt32 × NativeClient) :=
  thenParse invalidated (c.request .tagInvalidate (.tagInvalidate ns tag) x)

def startLeaseRaw (leaseTtlMs : UInt64) (allowStaleMs : Option UInt64) :
    Option (Except ClientError ResponsePayload × NativeClient) :=
  c.request .leaseStart (.leaseStart ns key leaseTtlMs allowStaleMs) x

def startLease (leaseTtlMs : UInt64) (allowStaleMs : Option UInt64) :
    Option (Except ClientError LeaseStartResult × NativeClient) :=
  thenParse LeaseStartResult.tryFrom (c.startLeaseRaw ns key x leaseTtlMs allowStaleMs)

def completeLease (leaseToken : String) (metadata : Metadata) (value : Bytes) :
    Option (Except ClientError UInt32 × NativeClient) :=
  thenParse (stored "lease completion did not return stored")
    (c.request .leaseComplete (.leaseComplete ns key leaseToken metadata value) x)

end

/-- What a method returns. -/
inductive Reply where
  | got (result : GetResult)
  | stored (evicted : UInt32)
  | deleted (removed : Bool)
  | batch (results : List GetResult)
  | invalidated (removed : UInt32)
  | lease (result : LeaseStartResult)
  deriving DecidableEq, Repr

/-- The method that sends a request. -/
def callMethod (c : NativeClient) (payload : RequestPayload) (x : Exchange) :
    Option (Except ClientError Reply × NativeClient) :=
  match payload with
  | .get ns key => thenParse (.ok ∘ .got) (c.get ns key x)
  | .put ns key metadata value => thenParse (.ok ∘ .stored) (c.put ns key x metadata value)
  | .delete ns key => thenParse (.ok ∘ .deleted) (c.delete ns key x)
  | .batchGet ns keys => thenParse (.ok ∘ .batch) (c.batchGet ns x keys)
  | .tagInvalidate ns tag => thenParse (.ok ∘ .invalidated) (c.invalidateTag ns x tag)
  | .leaseStart ns key leaseTtlMs allowStaleMs =>
    thenParse (.ok ∘ .lease) (c.startLease ns key x leaseTtlMs allowStaleMs)
  | .leaseComplete ns key leaseToken metadata value =>
    thenParse (.ok ∘ .stored) (c.completeLease ns key x leaseToken metadata value)

/-- What the method that sends `payload` makes of the payload of the response. -/
def parseReply (payload : RequestPayload) (response : ResponsePayload) :
    Except ClientError Reply :=
  match payload with
  | .get .. => GetResult.tryFrom response >>= .ok ∘ .got
  | .put .. => NativeClient.stored "put did not return stored" response >>= .ok ∘ .stored
  | .delete .. => NativeClient.deleted response >>= .ok ∘ .deleted
  | .batchGet .. => batchItems response >>= fun items => .ok (.batch (items.map .ofBatchItem))
  | .tagInvalidate .. => NativeClient.invalidated response >>= .ok ∘ .invalidated
  | .leaseStart .. => LeaseStartResult.tryFrom response >>= .ok ∘ .lease
  | .leaseComplete .. =>
    NativeClient.stored "lease completion did not return stored" response >>= .ok ∘ .stored

theorem thenParse_thenParse {α β γ : Type} (parse : α → Except ClientError β)
    (parse' : β → Except ClientError γ) (r : Option (Except ClientError α × NativeClient)) :
    thenParse parse' (thenParse parse r) = thenParse (fun a => parse a >>= parse') r := by
  rcases r with _ | ⟨_ | a, c⟩
  · rfl
  · rfl
  · rfl

/-- Every method is a request and a reading of its response. -/
theorem callMethod_eq (c : NativeClient) (payload : RequestPayload) (x : Exchange) :
    c.callMethod payload x =
      thenParse (parseReply payload) (c.request payload.command payload x) := by
  cases payload with
  | batchGet ns keys =>
    refine (thenParse_thenParse ..).trans ((thenParse_thenParse ..).trans ?_)
    refine congrArg (thenParse · _) (funext fun response => ?_)
    cases response <;> rfl
  | _ => exact thenParse_thenParse ..

end NativeClient
end Cachebox
