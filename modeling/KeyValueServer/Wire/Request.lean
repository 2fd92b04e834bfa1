import KeyValueServer.Wire.Codec
import KeyValueServer.Command.Code

/-!
# Requests and answers

A request is the token of its command's number, then a byte string for the key and, to store,
one for the value. An answer is the token of a status, zero for success, and after it the
value that was asked for. A lone byte `0xFF` answers a command that could not be read.
-/

namespace KeyValueServer

/-- The byte that answers an unreadable command. -/
def failureMarker : UInt8 := 0xFF

/-- What a client asks a server for. -/
inductive Request where
  | get (key : Bytes)
  | set (key value : Bytes)
deriving DecidableEq

namespace Request

def code : Request → CommandCode
  | get _ => .get
  | set _ _ => .set

/-- Whether an answer to the request carries a value. -/
def wantsValue : Request → Bool
  | get _ => true
  | set _ _ => false

/-- The bytes of a request. -/
def frame : Request → Bytes
  | get key => Token.ofNat CommandCode.get.number ++ Token.ofBytes key
  | set key value => Token.ofNat CommandCode.set.number ++ Token.ofBytes key ++ Token.ofBytes value

/-- Write a request into an empty buffer of the usual size. -/
def encode (request : Request) : Except Error Buffer := do
  let b ← (Buffer.ofCapacity maxMessage).encodeNat request.code.number
  match request with
  | get key => b.encodeBytes key
  | set key value => do
      let b ← b.encodeBytes key
      b.encodeBytes value

end Request

/-- Read an answer: its value if one is wanted, or the status that it reports. -/
def readAnswer (wantsValue : Bool) (answer : Buffer) : Except Error (Option Bytes) :=
  match answer.decodeNat with
  | (.error e, _) => .error e
  | (.ok status, rest) =>
      if status ≠ 0 then .error (.status status)
      else if !wantsValue then .ok none
      else match rest.decodeBytes with
        | (.error e, _) => .error e
        | (.ok span, rest) => .ok (some (rest.bytesAt span))

end KeyValueServer
