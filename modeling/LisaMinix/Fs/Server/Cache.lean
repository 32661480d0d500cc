import LisaMinix.Fs.Server.State

/-!
# The Functions of the Buffer Cache

`cache.c`, and the bit maps of `super.c`, which are held in buffers.  `alloc_bit` and `free_bit`
get the table of the buffers that a map is in.
-/

namespace LisaMinix.Fs.Server

open LisaMinix.Library Function

/-! ## §1 Disk Input and Output -/

def majorOf (dev : ℕ) : ℕ := dev / 256 % 256

/-- `find_dev`: `max_major` is 7. -/
def findDev (dev : ℕ) : CacheM PUnit :=
  if majorOf dev = 0 ∨ 7 ≤ majorOf dev then throw (.badMajorDev (majorOf dev)) else pure ⟨⟩

/-- The answer to the next request for a disk. -/
def nextAnswer : CacheM IoAnswer := do
  let c ← get
  set { c with tick := c.tick + 1 }
  return c.io c.tick

def setDisk (dev block : ℕ) (data : Block) : CacheM PUnit :=
  modify fun c =>
    { c with disk := update c.disk dev (update (c.disk dev) block data) }

/-- What the disk task does for one buffer. -/
def transfer (bp : BufId) (dev : ℕ) (rw : RwFlag) (ans : IoAnswer) : CacheM PUnit := do
  let b := (← get).buf bp
  match rw with
  | .reading =>
    let disk := (← get).disk
    modBuf bp fun b => { b with data := if ans.ok then disk dev b.blocknr else ans.junk }
  | .writing =>
    modify fun c => { c with writes := (dev, b.blocknr) :: c.writes }
    setDisk dev b.blocknr (if ans.ok then b.data else ans.junk)

/-- `rw_block(bp, rw_flag)` -/
def rwBlock (bp : BufId) (rw : RwFlag) : CacheM PUnit := do
  let dev := ((← get).buf bp).dev
  if dev ≠ noDev then
    findDev dev
    let ans ← nextAnswer
    transfer bp dev rw ans
    if ans.ok = false then
      modBuf bp fun b => { b with dev := noDev }
      if rw = .reading then
        modify fun c => { c with rdwtErr := if 0 ≤ ans.err then END_OF_FILE else ans.err }
  modBuf bp fun b => { b with dirt := false }

/-! ## §2 The LRU Chain -/

/-- One buffer more or less is in use. -/
def useMore : CacheM PUnit :=
  modify fun c => { c with bufsInUse := c.bufsInUse + 1, peak := max c.peak (c.bufsInUse + 1) }

def useFewer : CacheM PUnit := modify fun c => { c with bufsInUse := c.bufsInUse - 1 }

/-- `put_block(bp, block_type)` for a buffer. -/
def putBuf (bp : BufId) (blockType : BlockType) : CacheM PUnit := do
  modBuf bp fun b => { b with count := b.count - 1 }
  if ((← get).buf bp).count = 0 then
    useFewer
    modify fun c =>
      { c with
        lru := if blockType.oneShot then bp :: c.lru.erase bp else c.lru.erase bp ++ [bp] }
    let b := (← get).buf bp
    if blockType.writeImmed ∧ b.dirt ∧ b.dev ≠ noDev then rwBlock bp .writing
    if blockType = .zuperBlock then modBuf bp fun b => { b with dev := noDev }

/-- `put_block(bp, block_type)` -/
def putBlock : Ptr BufId → BlockType → CacheM PUnit
  | .nil, _ => pure ⟨⟩
  | .to bp, blockType => putBuf bp blockType
  | .wild _, _ => throw .wildPointer

/-- The results of scattered i/o, buffer by buffer. -/
def harvestAll (dev : ℕ) (rw : RwFlag) : List BufId → CacheM PUnit
  | [] => pure ⟨⟩
  | bp :: bufq => do
    let ans ← nextAnswer
    transfer bp dev rw ans
    match rw with
    | .reading =>
      if ans.ok then modBuf bp fun b => { b with dev := dev }
      putBuf bp .partialDataBlock
    | .writing =>
      if ans.ok = false then modBuf bp fun b => { b with dev := noDev }
      modBuf bp fun b => { b with dirt := false }
    harvestAll dev rw bufq

/-- The innermost loop of the sort: the buffer at place `k` goes down by steps of `gap`, at most
    `n` of them. -/
def siftDown (c : Cache) (gap : ℕ) : ℕ → ℕ → Array BufId → Array BufId
  | 0, _, bufq => bufq
  | n + 1, k, bufq =>
    if h : gap ≤ k ∧ k < bufq.size then
      if (c.buf bufq[k]).blocknr < (c.buf bufq[k - gap]).blocknr then
        siftDown c gap n (k - gap) (bufq.swap (k - gap) k)
      else bufq
    else bufq

def sortPass (c : Cache) (bufq : Array BufId) (gap : ℕ) : Array BufId :=
  (List.range' gap (bufq.size - gap)).foldl (fun q j => siftDown c gap q.size j q) bufq

/-- The gaps for at most `NR_BUFS` buffers. -/
def queueGaps (bufqsize : ℕ) : List ℕ :=
  if bufqsize < 4 then [1] else if bufqsize < 13 then [4, 1] else [13, 4, 1]

/-- The queue, sorted on block numbers. -/
def sortQueue (c : Cache) (bufq : List BufId) : List BufId :=
  ((queueGaps bufq.length).foldl (sortPass c) bufq.toArray).toList

/-- `rw_scattered(dev, bufq, bufqsize, rw_flag)` -/
def rwScattered (dev : ℕ) (bufq : List BufId) (rw : RwFlag) : CacheM PUnit := do
  if bufq = [] then pure ⟨⟩
  else if nrBufs < bufq.length then throw .tooMuchScattered
  else
    findDev dev
    harvestAll dev rw (sortQueue (← get) bufq)

/-- `flushall(dev)` -/
def flushall (dev : ℕ) : CacheM PUnit := do
  let c ← get
  rwScattered dev ((List.finRange nrBufs).filter fun bp => (c.buf bp).dirt ∧ (c.buf bp).dev = dev)
    .writing

/-- `invalidate(device)` -/
def invalidate (device : ℕ) : CacheM PUnit :=
  modify fun c =>
    { c with
      buf := fun bp => if (c.buf bp).dev = device then { c.buf bp with dev := noDev } else c.buf bp }

/-! ## §3 `get_block` -/

/-- The search of the hash chain. -/
def searchHash (c : Cache) (dev block : ℕ) : Option BufId :=
  if dev = noDev then none
  else (c.hash (block % nrBufHash)).find? fun bp =>
    (c.buf bp).blocknr = block ∧ (c.buf bp).dev = dev

/-- A buffer that is not in use is taken for another block. -/
def takeBuf (bp : BufId) (dev block : ℕ) (onlySearch : Search) : CacheM BufId := do
  useMore
  -- remove the block from its hash chain
  modify fun c =>
    let h := (c.buf bp).blocknr % nrBufHash
    { c with hash := update c.hash h ((c.hash h).erase bp) }
  let b := (← get).buf bp
  if b.dev ≠ noDev ∧ b.dirt then flushall b.dev
  modBuf bp fun b =>
    { b with
      dev := if onlySearch = .prefetch then noDev else dev
      blocknr := block
      count := b.count + 1 }
  modify fun c =>
    let h := block % nrBufHash
    { c with hash := update c.hash h (bp :: c.hash h) }
  if dev ≠ noDev ∧ onlySearch = .normal then rwBlock bp .reading
  return bp

/-- `get_block(dev, block, only_search)` -/
def getBlock (dev block : ℕ) (onlySearch : Search) : CacheM BufId := do
  let c ← get
  match searchHash c dev block with
  | some bp =>
    if (c.buf bp).count = 0 then useMore
    modBuf bp fun b => { b with count := b.count + 1 }
    return bp
  | none =>
    if c.bufsInUse = nrBufs then throw .allBuffersInUse
    else match c.lru.find? fun bp => (c.buf bp).count = 0 with
      | none => throw .noFreeBuffer
      | some bp => takeBuf bp dev block onlySearch

/-- `zero_block(bp)` -/
def zeroBlock (bp : BufId) : CacheM PUnit :=
  modBuf bp fun b => { b with data := zeroBytes, dirt := true }

/-- The data of a buffer. -/
def readBuf (bp : BufId) : CacheM Block := do return ((← get).buf bp).data

/-- `b_ind[i]` -/
def getInd (b : Block) (i : ℕ) : ℕ := getWord b (2 * i)

/-- Data of a buffer are changed, and it is marked dirty. -/
def dirtyBuf (bp : BufId) (f : Block → Block) : CacheM PUnit :=
  modBuf bp fun b => { b with data := f b.data, dirt := true }

/-! ## §4 Bit Maps -/

def bitsPerBlock : ℕ := 8192
def intBits : ℕ := 16

/-- The lowest bit that is clear in a word. -/
def clearBit (k : ℕ) : Option ℕ := (List.range intBits).find? fun i => k.testBit i = false

/-- The words `w..` of one block of the map: `none` if the block has no free bit below `map_bits`. -/
def searchWords (data : Block) (mapBits b : ℕ) : ℕ → ℕ → Option ℕ
  | 0, _ => none
  | n + 1, w =>
    match clearBit (getWord data (2 * w)) with
    | none => searchWords data mapBits b n (w + 1)
    | some i =>
      -- a 16-bit `int`, compared as an unsigned number
      let a := toShort (i + w * intBits + b * bitsPerBlock)
      -- past the end of the map: look at the other blocks
      if mapBits ≤ a then none else some a

/-- The blocks of the map, from block `b` and word `w` on. -/
def searchBlocks (map : ℕ → Ptr BufId) (mapBits bitBlocks : ℕ) : ℕ → ℕ → ℕ → CacheM ℕ
  | 0, _, _ => pure 0
  | count + 1, b, w =>
    match map b with
    | .nil => throw .wildPointer
    | .wild _ => throw .wildPointer
    | .to bp => do
      let data ← readBuf bp
      match searchWords data mapBits b (512 - w) w with
      | some a =>
        dirtyBuf bp fun data =>
          let p := 2 * (a % bitsPerBlock / intBits)
          putWord data p (getWord data p ||| 1 <<< (a % intBits))
        return a
      | none => searchBlocks map mapBits bitBlocks count (if b + 1 = bitBlocks then 0 else b + 1) 0

/-- `alloc_bit(map_ptr, map_bits, bit_blocks, origin)`; 0 is `NO_BIT`. -/
def allocBit (map : ℕ → Ptr BufId) (mapBits bitBlocks origin : ℕ) : CacheM ℕ :=
  let origin := if mapBits ≤ origin then 0 else origin
  let b := origin / bitsPerBlock
  let w := origin % bitsPerBlock / intBits
  searchBlocks map mapBits bitBlocks (if w = 0 then bitBlocks else bitBlocks + 1) b w

/-- `free_bit(map_ptr, bit_returned)` -/
def freeBit (map : ℕ → Ptr BufId) (bit : ℕ) : CacheM PUnit :=
  match map (bit / bitsPerBlock) with
  | .nil => pure ⟨⟩
  | .wild _ => throw .wildPointer
  | .to bp => dirtyBuf bp fun data =>
    let p := 2 * (bit % bitsPerBlock / intBits)
    let k := getWord data p
    putWord data p (if k.testBit (bit % intBits) then k - 1 <<< (bit % intBits) else k)

end LisaMinix.Fs.Server
