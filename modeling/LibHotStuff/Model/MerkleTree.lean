import LibHotStuff.Model.Types

namespace LibHotStuff

/-- `EMPTY_HASH`: sixty-four characters '0'. -/
def emptyHash : Bytes := List.replicate 64 48

/-- `hash_2_leaf`: the digest of two concatenated hex strings. -/
def hash2Leaf (sha : Bytes → Bytes) (left right : Bytes) : Bytes := sha (left ++ right)

structure MerkleProof where
  mData : Bytes
  mIndex : Int
  mRootHash : Bytes
  mBranch : List Bytes
  deriving DecidableEq

/-- One round of the loop in `MerkleProof::validate`; `%` and `/` on `int` truncate. -/
def MerkleProof.climb (sha : Bytes → Bytes) : List Bytes → Bytes → Int → Bytes
  | [], cur, _ => cur
  | b :: bs, cur, i =>
    climb sha bs (if i.tmod 2 = 0 then hash2Leaf sha cur b else hash2Leaf sha b cur) (i.tdiv 2)

/-- `MerkleProof::validate`. -/
def MerkleProof.validate (sha : Bytes → Bytes) (p : MerkleProof) : Bool :=
  climb sha p.mBranch (sha p.mData) p.mIndex == p.mRootHash

namespace MerkleTree

/-- The padding of an odd level. -/
def padLevel (level : List Bytes) : List Bytes :=
  if level.length % 2 = 1 then level ++ [emptyHash] else level

/-- Hashes neighbours pairwise. -/
def pairUp (sha : Bytes → Bytes) : List Bytes → List Bytes
  | a :: b :: rest => hash2Leaf sha a b :: pairUp sha rest
  | _ => []

/-- The construction loop: the padded levels, and the single hash that ends it. -/
def build (sha : Bytes → Bytes) : Nat → List Bytes → Except Fault (List (List Bytes) × Bytes)
  | 0, _ => .error .diverges
  | fuel + 1, level =>
    match level with
    | [root] => .ok ([], root)
    | _ =>
      (build sha fuel (pairUp sha (padLevel level))).map fun (levels, root) =>
        (padLevel level :: levels, root)

/-- `proof_i`'s walk over the padded levels. -/
def branch : List (List Bytes) → Nat → List Bytes
  | [], _ => []
  | level :: levels, i =>
    (level[if i % 2 = 0 then i + 1 else i - 1]?).getD [] :: branch levels (i / 2)

/-- `MerkleTree(shards).proofs()`; the loop of the constructor does not end on no shards. -/
def proofs (sha : Bytes → Bytes) (shards : List Bytes) : Except Fault (List MerkleProof) :=
  (build sha (shards.length + 1) (shards.map sha)).map fun (levels, root) =>
    shards.mapIdx fun i data =>
      { mData := data, mIndex := i, mRootHash := root, mBranch := branch levels i }

end MerkleTree
end LibHotStuff
