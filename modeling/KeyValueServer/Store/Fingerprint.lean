import KeyValueServer.Bytes

/-!
# Fingerprints

The hash by which keys are spread over a table's slots: FNV-1a on 64 bits. A table works with
any hash; this is the one a server uses.
-/

namespace KeyValueServer

/-- The 64-bit FNV-1a hash of a byte string. -/
def fingerprint (bytes : Bytes) : UInt64 :=
  bytes.foldl (fun h b => (h ^^^ b.toUInt64) * 0x100000001b3) 0xcbf29ce484222325

end KeyValueServer
