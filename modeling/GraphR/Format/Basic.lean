import GraphR.Library.Bytes

/-! # Shared vocabulary of the file formats

    Errors, keys, edge types, revalidation outcomes, and the UTF-8 reading of
    byte strings: what the log, the base file and the store all speak. -/

namespace GraphR

open ByteLib

/-! ## Errors -/

/-- The failure modes the crate surfaces. -/
inductive Error where
  | format (message : String)
  | locked
  | busy (message : String)
  | corrupt (message : String)
  | readOnly
  | io
  | version (found supported : UInt16)
  deriving DecidableEq, Repr

namespace Error

/-- What `Display` prints. -/
def display : Error → String
  | .format m => "format error: " ++ m
  | .version found supported =>
    "format error: unsupported version " ++ toString found ++ " (this build reads "
      ++ toString supported ++ ")"
  | .locked => "store is locked by another writer"
  | .busy m => "store is busy: " ++ m
  | .corrupt m => "store is corrupt: " ++ m
  | .readOnly => "store was opened read-only"
  | .io => "io error"

end Error

/-! ## Keys -/

/-- Durable identity of a document: xxh3 of its canonical URL. -/
abbrev UrlKey : Type := UInt64

/-- The bytes a segment key is the xxh3 of: the owner, a NUL, the heading
    path. -/
def segKeyBytes (owner : UrlKey) (label : Bytes) : Bytes := putU64 owner ++ [0] ++ label

/-! ## Edge types -/

inductive EdgeType where
  | link
  | related
  | redirect
  | contains
  | derives
  | conditions
  | unknown (tag : UInt8)
  deriving DecidableEq, Repr

namespace EdgeType

/-- On-disk tag. -/
def asTag : EdgeType → UInt8
  | .link => 0
  | .related => 2
  | .redirect => 3
  | .contains => 4
  | .derives => 5
  | .conditions => 6
  | .unknown t => t

/-- Decode an on-disk tag; an unknown one is preserved. -/
def fromTag (tag : UInt8) : EdgeType :=
  if tag = 0 then .link
  else if tag = 2 then .related
  else if tag = 3 then .redirect
  else if tag = 4 then .contains
  else if tag = 5 then .derives
  else if tag = 6 then .conditions
  else .unknown tag

@[simp] theorem asTag_fromTag (tag : UInt8) : (fromTag tag).asTag = tag := by
  unfold fromTag
  split_ifs <;> simp_all [asTag]

end EdgeType

/-! ## Revalidation outcomes -/

inductive Outcome where
  | unchanged
  | changed
  | error
  | gone
  deriving DecidableEq, Repr

namespace Outcome

/-- On-disk tag. -/
def asTag : Outcome → UInt8
  | .unchanged => 0
  | .changed => 1
  | .error => 2
  | .gone => 3

end Outcome

/-! ## Flags -/

namespace nflags
def pinned : UInt16 := 1
def stub : UInt16 := 2
def tombstone : UInt16 := 4
end nflags

namespace eflags
def inferred : UInt8 := 2
def exact : UInt8 := 4
end eflags

namespace sflags
def noRange : UInt8 := 1
end sflags

/-! ## UTF-8 -/

/-- The bytes of a `&str`. -/
def strBytes (s : String) : Bytes := s.toByteArray.data.toList

/-- `std::str::from_utf8`. -/
def fromUtf8 (bs : Bytes) : Option String := String.fromUTF8? (ByteArray.mk bs.toArray)

/-- `s.len()`: the length in bytes. -/
def strLen (s : String) : Nat := (strBytes s).length

theorem fromUtf8_strBytes (s : String) : fromUtf8 (strBytes s) = some s := by
  have harr : ByteArray.mk (strBytes s).toArray = s.toByteArray := by
    simp [strBytes]
  have hv : (ByteArray.mk (strBytes s).toArray).IsValidUTF8 := by
    rw [harr]; exact s.isValidUTF8
  unfold fromUtf8 String.fromUTF8?
  rw [dif_pos hv]
  exact congrArg some (String.toByteArray_inj.mp harr)

@[simp] theorem strBytes_append (s t : String) : strBytes (s ++ t) = strBytes s ++ strBytes t := by
  simp [strBytes]

@[simp] theorem strBytes_empty : strBytes "" = [] := by
  simp [strBytes]

end GraphR
