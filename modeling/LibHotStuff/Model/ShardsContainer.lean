import LibHotStuff.Model.Types
import Mathlib

namespace LibHotStuff

/-- `ShardsContainer`; the map is keyed by the block hash whose hex text the code uses. -/
structure ShardsContainer (H : Type) where
  threshold : Nat
  nodenum : Nat
  shards : H → Option (List Bytes × Nat)

namespace ShardsContainer

variable {H : Type} [DecidableEq H]

/-- `set_pramas` on an empty container. -/
def setParams (nodeNum : Nat) : ShardsContainer H :=
  { nodenum := nodeNum, threshold := nodeNum - (nodeNum - 1) / 3, shards := fun _ => none }

/-- `new_block`: `map::insert` keeps an entry that exists. -/
def newBlock (sc : ShardsContainer H) (hash : H) : ShardsContainer H :=
  match sc.shards hash with
  | some _ => sc
  | none =>
    { sc with shards := Function.update sc.shards hash (some (List.replicate sc.nodenum [], 0)) }

/-- `insert_shard`. -/
def insertShard (sc : ShardsContainer H) (hash : H) (idx : Nat) (data : Bytes) :
    Except Fault (Int × ShardsContainer H) :=
  let sc := sc.newBlock hash
  match sc.shards hash with
  | none => .error .undefined
  | some (first, second) =>
    match first[idx]? with
    | none => .error .undefined
    | some cur =>
      if cur.length ≠ 0 then .ok (-1, sc)
      else
        .ok (0, { sc with
          shards := Function.update sc.shards hash (some (first.set idx data, second + 1)) })

/-- `get_block`: the return code and the shards. -/
def getBlock (sc : ShardsContainer H) (hash : H) : Int × List Bytes :=
  match sc.shards hash with
  | none => (-1, [])
  | some (first, second) => if second < sc.threshold then (-2, []) else (0, first)

/-- `enough`. -/
def enough (sc : ShardsContainer H) (hash : H) : Bool :=
  match sc.shards hash with
  | none => false
  | some (_, second) => !decide (second < sc.threshold)

/-- `remove`. -/
def remove (sc : ShardsContainer H) (hash : H) : ShardsContainer H :=
  { sc with shards := Function.update sc.shards hash none }

end ShardsContainer
end LibHotStuff
