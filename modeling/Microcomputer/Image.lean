import Microcomputer.Files
import Microcomputer.Layout
import Microcomputer.Listing.Reader

/-!
# Images

An image is a byte string that fills a memory of the machine: a bank of the control store or the
bootstrap region.
-/

namespace Microcomputer

/-- Why bytes or a file are no image. -/
inductive ImageError where
  | bankSize (bank length : Nat)
  | bootSize (length : Nat)
  | file (error : FileError)
  | listing (error : Listing.ReadError)
deriving DecidableEq, Repr

/-- The wording of an image error. -/
def ImageError.message : ImageError → String
  | bankSize bank length =>
    "bank " ++ Text.decimal bank ++ " holds " ++ Text.decimal length ++ " bytes, expected " ++
      Text.decimal storeSize
  | bootSize length =>
    "bootstrap image is " ++ Text.decimal length ++ " bytes, at most " ++
      Text.decimal Microcomputer.bootSize ++ " fit"
  | file error => error.message
  | listing error => error.message

/-! ## Bootstrap images -/

namespace Boot

/-- The file contents are a listing: they start with its header. -/
def isListing (contents : List UInt8) : Bool :=
  Listing.header.toUTF8.data.toList.isPrefixOf contents

/-- The bootstrap image in a file, which holds either a listing or the bytes themselves. -/
def ofContents (contents : List UInt8) : Except ImageError (List UInt8) :=
  if isListing contents then
    match Listing.read contents with
    | .ok listing =>
      if bootSize < listing.size then .error (.bootSize listing.size) else .ok listing.bytes
    | .error e => .error (.listing e)
  else if bootSize < contents.length then .error (.bootSize contents.length)
  else .ok contents

/-- Reads the bootstrap image from the file at a path. -/
def read {m : Type → Type} [Monad m] (files : FileSystem m) (path : String) :
    m (Except ImageError (List UInt8)) := do
  match ← files.read path with
  | .ok contents => return ofContents contents
  | .error e => return .error (.file e)

end Boot

end Microcomputer
