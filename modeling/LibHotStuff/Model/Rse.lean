import LibHotStuff.Model.Types

namespace LibHotStuff

/-- The leopard library as `RSE` calls it: each function returns its result code, and
`encode` and `decode` the buffers they leave in the work data. -/
structure Leopard where
  encodeWorkCount : Nat → Nat → Nat
  decodeWorkCount : Nat → Nat → Nat
  encode : (bufferBytes originalCount recoveryCount workCount : Nat) → List Bytes →
    Int × List Bytes
  decode : (bufferBytes originalCount recoveryCount workCount : Nat) → List (Option Bytes) →
    List (Option Bytes) → Int × List Bytes

structure RSE where
  originalCount : Nat
  recoveryCount : Nat
  deriving DecidableEq, Repr

namespace RSE

/-- `RSE::set_params`. -/
def setParams (nodeNum : Nat) : RSE :=
  { recoveryCount := (nodeNum - 1) / 3, originalCount := nodeNum - (nodeNum - 1) / 3 }

/-- `slice_bytes` as `encode` computes it, with its cast to 32 bits. -/
def sliceBytes (r : RSE) (dataBytes : Nat) : Nat :=
  (dataBytes + 8 + 8 + r.originalCount - 1) / r.originalCount % 2 ^ 32

def bufferBytes (sliceBytes : Nat) : Nat := (sliceBytes + 64 - 1) / 64 * 64

/-- `input_data`: the two header words, the input, and zeros up to `input_bytes`. -/
def inputData (input : Bytes) (sliceBytes inputBytes : Nat) : Bytes :=
  le64 input.length ++ le64 sliceBytes ++ input ++
    List.replicate (inputBytes - (16 + input.length)) 0

/-- The loop that fills `original_data[i]`. -/
def originalData (r : RSE) (inputData : Bytes) (sliceBytes bufferBytes : Nat) : List Bytes :=
  (List.range r.originalCount).map fun i =>
    (inputData.drop (i * sliceBytes)).take sliceBytes ++
      List.replicate (bufferBytes - sliceBytes) 0

/-- `RSE::encode` into an empty output vector. -/
def encode (leo : Leopard) (r : RSE) (input : Bytes) : Except Fault (Int × List Bytes) :=
  if r.originalCount = 0 then .error .undefined
  else
    let sliceBytes := r.sliceBytes input.length
    let bufferBytes := bufferBytes sliceBytes
    let inputBytes := sliceBytes * r.originalCount
    -- the three memcpy calls write 16 + data_bytes bytes into input_data
    if inputBytes < 16 + input.length then .error .undefined
    else
      let workCount := leo.encodeWorkCount r.originalCount r.recoveryCount
      if workCount = 0 then .ok (-9, [])
      else
        let original := r.originalData (inputData input sliceBytes inputBytes) sliceBytes bufferBytes
        let (rst, work) :=
          leo.encode bufferBytes r.originalCount r.recoveryCount workCount original
        if rst ≠ 0 then .ok (rst, [])
        else if work.length < r.recoveryCount then .error .undefined
        else .ok (0, original ++ work.take r.recoveryCount)

/-- The size of the last non-empty shard. -/
def lastSize (input : List Bytes) : Nat :=
  input.foldl (fun b s => if s.length ≠ 0 then s.length else b) 0

/-- The two header words at the start of a buffer. -/
def readHeader (buf : Bytes) : Except Fault (Nat × Nat) :=
  if buf.length < 16 then .error .undefined
  else .ok (readLe (buf.take 8), readLe ((buf.drop 8).take 8))

/-- First loop of `decode`: appends original shards from `i` on until one is lost. -/
def appendPresent (input : List Bytes) (sliceBytes : Nat) :
    Nat → Nat → Bytes → Except Fault (Nat × Bytes)
  | 0, i, out => .ok (i, out)
  | left + 1, i, out =>
    match input[i]? with
    | none => .error .undefined
    | some s =>
      if s.length = 0 then .ok (i, out)
      else if s.length < sliceBytes then .error .undefined
      else appendPresent input sliceBytes left (i + 1) (out ++ s.take sliceBytes)

/-- Last loop of `decode`: a lost shard is taken from the work data. -/
def appendRecovered (input work : List Bytes) (sliceBytes : Nat) :
    Nat → Nat → Bytes → Except Fault Bytes
  | 0, _, out => .ok out
  | left + 1, i, out =>
    match input[i]? with
    | none => .error .undefined
    | some s =>
      if s.length = 0 then
        match work[i]? with
        | none => .error .undefined
        | some w =>
          if w.length < sliceBytes then .error .undefined
          else appendRecovered input work sliceBytes left (i + 1) (out ++ w.take sliceBytes)
      else if s.length < sliceBytes then .error .undefined
      else appendRecovered input work sliceBytes left (i + 1) (out ++ s.take sliceBytes)

/-- The two `erase` calls: the header goes, and what follows the first `data_bytes`. -/
def cutOutput (dataBytes : Nat) (out : Bytes) : Except Fault Bytes :=
  if out.length < 16 then .error .undefined
  else if (out.drop 16).length < dataBytes then .error .undefined
  else .ok ((out.drop 16).take dataBytes)

/-- Copies shard `i` into a buffer of `bufferBytes`, or leaves a null pointer. -/
def loadBuffer (input : List Bytes) (bufferBytes i : Nat) : Except Fault (Option Bytes) :=
  match input[i]? with
  | none => .error .undefined
  | some s =>
    if s.length = 0 then .ok none
    else if s.length < bufferBytes then .error .undefined
    else .ok (some (s.take bufferBytes))

/-- The part of `decode` that follows the fast path; `header` is what shard 0 gave. -/
def recover (leo : Leopard) (r : RSE) (input : List Bytes) (bufferBytes lostIndex : Nat)
    (header : Option (Nat × Nat)) (out : Bytes) : Except Fault (Int × Bytes) := do
  let workCount := leo.decodeWorkCount r.originalCount r.recoveryCount
  if workCount = 0 then return (-9, out)
  let original ← (List.range r.originalCount).mapM (loadBuffer input bufferBytes)
  let recovery ← (List.range r.recoveryCount).mapM fun i =>
    loadBuffer input bufferBytes (r.originalCount + i)
  let (rst, work) := leo.decode bufferBytes r.originalCount r.recoveryCount workCount original recovery
  if rst ≠ 0 then return (rst, out)
  let (dataBytes, sliceBytes) ← match header with
    | some h => pure h
    | none => readHeader ((work[0]?).getD [])
  let out ← appendRecovered input work sliceBytes (r.originalCount - lostIndex) lostIndex out
  let out ← cutOutput dataBytes out
  return (0, out)

/-- `RSE::decode` into an empty output vector. -/
def decode (leo : Leopard) (r : RSE) (input : List Bytes) : Except Fault (Int × Bytes) := do
  let bufferBytes := lastSize input
  if bufferBytes = 0 ∨ bufferBytes % 64 ≠ 0 then return (-1, [])
  let first := (input[0]?).getD []
  if first.length = 0 then
    recover leo r input bufferBytes 0 none []
  else
    let (dataBytes, sliceBytes) ← readHeader first
    let (lostIndex, out) ← appendPresent input sliceBytes r.originalCount 0 []
    if lostIndex = r.originalCount then
      let out ← cutOutput dataBytes out
      return (0, out)
    else
      recover leo r input bufferBytes lostIndex (some (dataBytes, sliceBytes)) out

end RSE
end LibHotStuff
