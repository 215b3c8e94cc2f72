import Unearth.Undelete

/-!
# What an undelete attempts, one file after the other

Every reader of a volume turns what it has found into attempts, in the order in which they
are carried out: an entry that is only recorded, or a file that is written under a path.
-/

namespace Unearth

/-- One attempt. A file that is `written` was created before its bytes were copied, so that it
is there even if the copy has failed. -/
inductive Salvage
  | skipped (rel : Path) (size : ℕ)
  | listed (rel : Path) (size : ℕ)
  | written (rel : Path) (size : ℕ) (content : List UInt8) (recovered : Bool)
  | unnamed (rel : Path) (size : ℕ) (content : List UInt8) (recovered : Bool)
  deriving DecidableEq

/-- The last component of a path. -/
def fileNameOf (rel : Path) : Lines.Text := rel.getLastD []

end Unearth
