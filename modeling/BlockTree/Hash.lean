import BlockTree.Hex
import BlockTree.Sha256

/-! Hashes of 32 bytes and their text form. -/

namespace BlockTree

structure Hash where
  bytes : Bytes
  length_bytes : bytes.length = 32
deriving DecidableEq

namespace Hash

/-- The first 32 bytes, with zeros for those that are missing. -/
def ofBytes (bs : Bytes) : Hash :=
  ⟨(bs ++ List.replicate 32 0).take 32, by simp⟩

def zero : Hash :=
  ofBytes []

instance : Inhabited Hash := ⟨zero⟩

def isZero (h : Hash) : Bool :=
  h.bytes.all (· == 0)

def toNat (h : Hash) : Nat :=
  ofBigEndian h.bytes

def double (message : Bytes) : Hash :=
  ofBytes (sha256 (sha256 message))

def text (h : Hash) : String :=
  Hex.text h.bytes

instance : ToString Hash := ⟨text⟩

inductive TextFault where
  | hex (fault : Hex.Fault)
  | length (bytes : Nat)
deriving DecidableEq

def TextFault.message : TextFault → String
  | hex fault => s!"Invalid hex: {fault.message}"
  | length bytes => s!"Invalid hash length: expected 32 bytes, got {bytes}"

def stripMarker : List Char → List Char
  | '0' :: 'x' :: rest => rest
  | text => text

def parse (text : List Char) : Except TextFault Hash :=
  match Hex.decode (stripMarker text) with
  | .error fault => .error (.hex fault)
  | .ok bs => if h : bs.length = 32 then .ok ⟨bs, h⟩ else .error (.length bs.length)

def parse? (text : List Char) : Option Hash :=
  (parse text).toOption

theorem ofBytes_of_length {bs : Bytes} (h : bs.length = 32) : (ofBytes bs).bytes = bs := by
  simp [ofBytes, ← h]

@[simp] theorem ofBytes_bytes (h : Hash) : ofBytes h.bytes = h := by
  cases h with
  | mk bytes length_bytes => simp [ofBytes, ← length_bytes]

end Hash

end BlockTree
