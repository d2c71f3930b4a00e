import Mathlib.Data.Int.Notation
import Mathlib.Data.List.Basic
import Mathlib.Tactic.Common

/-!
# Vector ids and document ids (`VIDMgr` in `vector/raw_vector_common.h`)

With one vector a document a vector id *is* the document id. The multi-vector tables are kept as
the source has them: `docid2vid_[docid]` is a counter followed by `MAX_VECTOR_NUM_PER_DOC` cells.
-/

namespace AwaDB

/-- `MAX_VECTOR_NUM_PER_DOC`. -/
def maxVectorNumPerDoc : ℕ := 10

/-- `VIDMgr`; `none` in `docid2vid` is the null pointer, and in an array a cell that was not written. -/
structure VIDMgr where
  multiVids : Bool
  vid2docid : List ℤ
  docid2vid : List (Option (List (Option ℕ)))
deriving DecidableEq, Repr

namespace VIDMgr

/-- `VIDMgr(multi_vids)` followed by `Init(max_vector_size)`. -/
def init (multiVids : Bool) (maxVectorSize : ℕ) : VIDMgr where
  multiVids := multiVids
  vid2docid := if multiVids then List.replicate maxVectorSize (-1) else []
  docid2vid := if multiVids then List.replicate maxVectorSize none else []

/-- `VIDMgr::VID2DocID`. -/
def vid2DocID (m : VIDMgr) (vid : ℕ) : ℤ :=
  if m.multiVids then m.vid2docid.getD vid (-1) else vid

end VIDMgr

end AwaDB
