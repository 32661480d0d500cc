import LisaMinix.Fs.Server.Cache

/-!
# Super Blocks, Inodes and Zones

`super.c` and `inode.c`, with the functions on zones that releasing an inode needs: `read_map`
(`read.c`), `write_map`, `clear_zone` and `new_block` (`write.c`), `truncate` (`link.c`).
-/

namespace LisaMinix.Fs.Server

open LisaMinix.Library Function

/-! ## §1 The Super Block Table -/

/-- The least index with a property, as the loops over a table find it. -/
def firstId {n : ℕ} (p : Fin n → Bool) : Option (Fin n) := (List.finRange n).find? p

/-- The greatest index with a property. -/
def lastId {n : ℕ} (p : Fin n → Bool) : Option (Fin n) := (List.finRange n).reverse.find? p

/-- `get_super(dev)` -/
def getSuper (dev : ℕ) : FsM SuperId := do
  let s ← get
  match firstId fun sp => (s.supers sp).dev = dev with
  | some sp => return sp
  | none => throw (.noSuper dev)

/-- `sizeof(struct buf)` and `sizeof(struct inode)` -/
def sizeofBuf : ℕ := 1042
def sizeofInode : ℕ := 52

/-- A pointer into a table of `n` structs at address `base`. -/
def ptrOfAddr (n base size a : ℕ) : Ptr (Fin n) :=
  if a = 0 then .nil
  else if h : base ≤ a ∧ (a - base) % size = 0 ∧ (a - base) / size < n then
    .to ⟨(a - base) / size, h.2.2⟩
  else .wild a

def addrOfPtr {n : ℕ} (base size : ℕ) : Ptr (Fin n) → ℕ
  | .nil => 0
  | .to i => base + size * i
  | .wild a => a

/-- 32 bits of a struct as a pointer. -/
def getAddr (b : Block) (p : ℕ) : ℕ := 65536 * getWord b p + getWord b (p + 2)

/-- The struct that is copied from the first bytes of a block, pointers and all. -/
def superOfBlock (g : Globals) (b : Block) : Super where
  ninodes := getWord b 0
  nzones := getWord b 2
  imapBlocks := getWord b 4
  zmapBlocks := getWord b 6
  firstdatazone := getWord b 8
  logZoneSize := getWord b 10
  maxSize := getLong b 12
  magic := getWord b 16
  imap i := if i < iMapSlots then ptrOfAddr nrBufs g.bufBase sizeofBuf (getAddr b (18 + 4 * i))
    else .wild 0
  zmap i := if i < zmapSlots then ptrOfAddr nrBufs g.bufBase sizeofBuf (getAddr b (50 + 4 * i))
    else .wild 0
  dev := getWord b 82
  isup := ptrOfAddr nrInodes g.inodeBase sizeofInode (getAddr b 84)
  imount := ptrOfAddr nrInodes g.inodeBase sizeofInode (getAddr b 88)
  time := getLong b 92
  rdOnly := getByte b 96
  dirt := getByte b 97 ≠ 0

def putPtrs (g : Globals) (map : ℕ → Ptr BufId) (n p : ℕ) (b : Block) : Block :=
  (List.range n).foldl
    (fun b i => putLong b (p + 4 * i) (addrOfPtr g.bufBase sizeofBuf (map i))) b

/-- The block with the struct copied to its first bytes. -/
def blockOfSuper (g : Globals) (sp : Super) (b : Block) : Block :=
  let b := putWord (putWord (putWord b 0 sp.ninodes) 2 sp.nzones) 4 sp.imapBlocks
  let b := putWord (putWord (putWord b 6 sp.zmapBlocks) 8 sp.firstdatazone) 10 sp.logZoneSize
  let b := putWord (putLong b 12 sp.maxSize) 16 sp.magic
  let b := putPtrs g sp.zmap zmapSlots 50 (putPtrs g sp.imap iMapSlots 18 b)
  let b := putWord b 82 sp.dev
  let b := putLong b 84 (addrOfPtr g.inodeBase sizeofInode sp.isup)
  let b := putLong b 88 (addrOfPtr g.inodeBase sizeofInode sp.imount)
  putByte (putByte (putLong b 92 sp.time) 96 sp.rdOnly) 97 (if sp.dirt then 1 else 0)

def superBlock : ℕ := 1

/-- `rw_super(sp, READING)` -/
def readSuperBlock (sp : SuperId) : FsM PUnit := do
  let dev := (← readSuper sp).dev
  let bp ← liftC (getBlock dev superBlock .normal)
  let b ← liftC (readBuf bp)
  let g ← globals
  modSuper sp fun _ => { superOfBlock g b with dev := dev, dirt := false }
  liftC (putBlock (.to bp) .zuperBlock)

/-- `rw_super(sp, WRITING)` -/
def writeSuperBlock (sp : SuperId) : FsM PUnit := do
  let x ← readSuper sp
  let bp ← liftC (getBlock x.dev superBlock .noRead)
  let g ← globals
  liftC (dirtyBuf bp (blockOfSuper g x))
  modSuper sp fun x => { x with dirt := false }
  liftC (putBlock (.to bp) .zuperBlock)

/-- `scale_factor(ip)` -/
def scaleFactor (rip : InodeId) : FsM ℕ := do
  let sp ← getSuper (← readInode rip).dev
  return (← readSuper sp).logZoneSize

/-- `s_imap[i]`, which has `I_MAP_SLOTS` entries, and `s_zmap[i]`. -/
def setImap (sp : SuperId) (i : ℕ) (bp : BufId) : FsM PUnit :=
  modSuper sp fun x => { x with imap := update x.imap i (.to bp) }

def setZmap (sp : SuperId) (i : ℕ) (bp : BufId) : FsM PUnit :=
  modSuper sp fun x => { x with zmap := update x.zmap i (.to bp) }

/-- A loop of `load_bit_maps`: blocks `block..` of the device go to slots `i..`. -/
def loadMap (set : ℕ → BufId → FsM PUnit) (dev : ℕ) : ℕ → ℕ → ℕ → FsM PUnit
  | 0, _, _ => pure ⟨⟩
  | n + 1, i, block => do
    let bp ← liftC (getBlock dev block .normal)
    set i bp
    loadMap set dev n (i + 1) (block + 1)

/-- Marks bits of the first word of a map as busy; the buffer is not marked dirty. -/
def busyBits (p : Ptr BufId) (bits : ℕ) : FsM PUnit :=
  match p with
  | .to bp => liftC (modBuf bp fun b => { b with data := putWord b.data 0 (getWord b.data 0 ||| bits) })
  | _ => throw .wildPointer

/-- `load_bit_maps(dev)`; the sum is one of 16-bit unsigned numbers. -/
def loadBitMaps (dev : ℕ) : FsM ℤ := do
  let sp ← getSuper dev
  let x ← readSuper sp
  let inUse := (← get).cache.bufsInUse
  if nrBufs - 3 ≤ toShort (inUse + x.imapBlocks + x.zmapBlocks) then return ERROR
  else if iMapSlots < x.imapBlocks ∨ zmapSlots < x.zmapBlocks then throw .tooManyMapBlocks
  else
    loadMap (setImap sp) dev x.imapBlocks 0 (superBlock + 1)
    loadMap (setZmap sp) dev x.zmapBlocks 0 (superBlock + 1 + x.imapBlocks)
    let x ← readSuper sp
    busyBits (x.imap 0) 3
    busyBits (x.zmap 0) 1
    return OK

/-- A loop of `unload_bit_maps`. -/
def unloadMap (map : ℕ → Ptr BufId) (blockType : BlockType) : ℕ → ℕ → FsM PUnit
  | 0, _ => pure ⟨⟩
  | n + 1, i => do
    liftC (putBlock (map i) blockType)
    unloadMap map blockType n (i + 1)

/-- `unload_bit_maps(dev)` -/
def unloadBitMaps (dev : ℕ) : FsM PUnit := do
  let sp ← getSuper dev
  let x ← readSuper sp
  unloadMap x.imap .iMapBlock x.imapBlocks 0
  unloadMap x.zmap .zmapBlock x.zmapBlocks 0

/-- `mounted(rip)` -/
def mounted (rip : InodeId) : FsM Bool := do
  let s ← get
  let dev := (s.inodes rip).zone 0
  return dev = s.g.rootDev || (firstId fun sp => (s.supers sp).dev = dev).isSome

/-! ## §2 Zones -/

/-- `alloc_zone(dev, z)`; 0 is `NO_ZONE`. -/
def allocZone (dev z : ℕ) : FsM ℕ := do
  let sp ← getSuper dev
  let x ← readSuper sp
  let bit := toShort (z + 65537 - x.firstdatazone)
  let b ← liftC (allocBit x.zmap (toShort (x.nzones + 65536 - x.firstdatazone + 1)) x.zmapBlocks bit)
  if b = 0 then
    setErr ENOSPC
    return 0
  else return toShort (x.firstdatazone + 65535 + b)

/-- `free_zone(dev, numb)` -/
def freeZone (dev numb : ℕ) : FsM PUnit := do
  if numb = 0 then pure ⟨⟩
  else
    let sp ← getSuper dev
    let x ← readSuper sp
    liftC (freeBit x.zmap (toShort (numb + 65537 - x.firstdatazone)))

/-- An entry of an indirect block. -/
def indirectEntry (dev b i : ℕ) : CacheM ℕ := do
  let bp ← getBlock dev b .normal
  let data ← readBuf bp
  putBlock (.to bp) .indirectBlock
  return getInd data i

/-- The zone for relative zone number `zone` of a file; 0 is `NO_ZONE`. -/
def zoneOf (dev : ℕ) (izone : ℕ → ℕ) (scale zone : ℕ) : CacheM ℕ :=
  if zone < nrDzoneNum then pure (izone zone)
  else
    let excess := zone - nrDzoneNum
    if excess < nrIndirects then
      if izone nrDzoneNum = 0 then pure 0
      else indirectEntry dev (toShort (izone nrDzoneNum * 2 ^ scale)) excess
    else if izone (nrDzoneNum + 1) = 0 then pure 0
    else do
      let excess := excess - nrIndirects
      let z ← indirectEntry dev (toShort (izone (nrDzoneNum + 1) * 2 ^ scale))
        (excess / nrIndirects)
      if z = 0 then return 0
      else indirectEntry dev (toShort (z * 2 ^ scale)) (excess % nrIndirects)

/-- `read_map(rip, position)`; 0 is `NO_BLOCK`.  A position that has overflowed gives an index below
    those of `i_zone`. -/
def readMap (rip : InodeId) (position : ℤ) : FsM ℕ := do
  let scale ← scaleFactor rip
  let i ← readInode rip
  if position ≤ -blockSize then throw .wildPointer
  else
    let blockPos := (position / blockSize).toNat
    let z ← liftC (zoneOf i.dev i.zone scale (blockPos / 2 ^ scale))
    if z = 0 then return 0
    else return toShort (z * 2 ^ scale + blockPos % 2 ^ scale)

/-- `rip->i_zone[i] = z` -/
def setZone (rip : InodeId) (i z : ℕ) : FsM PUnit :=
  modInode rip fun x => { x with zone := update x.zone i z }

/-- The end of `write_map`: the new zone goes into the single indirect block `z`. -/
def writeIndirect (rip : InodeId) (scale z excess newZone : ℕ) (newInd : Bool) : FsM ℤ := do
  let dev := (← readInode rip).dev
  let bp ← liftC (getBlock dev (toShort (z * 2 ^ scale)) (if newInd then .noRead else .normal))
  if newInd then liftC (zeroBlock bp)
  liftC (dirtyBuf bp fun data => putWord data (2 * excess) newZone)
  modInode rip fun x => { x with update := mtime }
  liftC (putBlock (.to bp) .indirectBlock)
  return OK

/-- `write_map` for a position that is found through the single indirect block. -/
def writeSingle (rip : InodeId) (scale excess newZone : ℕ) : FsM ℤ := do
  let i ← readInode rip
  if i.zone nrDzoneNum ≠ 0 then writeIndirect rip scale (i.zone nrDzoneNum) excess newZone false
  else
    let z ← allocZone i.dev (i.zone 0)
    setZone rip nrDzoneNum z
    if z = 0 then return (← globals).errCode
    else writeIndirect rip scale z excess newZone true

/-- `write_map` for a position that is found through the double indirect block `z`. -/
def writeDouble (rip : InodeId) (scale z index excess newZone : ℕ) (newDbl : Bool) : FsM ℤ := do
  let i ← readInode rip
  let bp ← liftC (getBlock i.dev (toShort (z * 2 ^ scale)) (if newDbl then .noRead else .normal))
  if newDbl then liftC (zeroBlock bp)
  let data ← liftC (readBuf bp)
  if getInd data index ≠ 0 then
    liftC (putBlock (.to bp) .indirectBlock)
    writeIndirect rip scale (getInd data index) excess newZone false
  else
    let z' ← allocZone i.dev (i.zone 0)
    liftC (dirtyBuf bp fun data => putWord data (2 * index) z')
    liftC (putBlock (.to bp) .indirectBlock)
    if z' = 0 then return (← globals).errCode
    else writeIndirect rip scale z' excess newZone true

/-- `write_map(rip, position, new_zone)` -/
def writeMap (rip : InodeId) (position : ℤ) (newZone : ℕ) : FsM ℤ := do
  modInode rip fun x => { x with dirt := true }
  let scale ← scaleFactor rip
  let zone := (position / blockSize).toNat / 2 ^ scale
  if zone < nrDzoneNum then
    setZone rip zone newZone
    modInode rip fun x => { x with update := mtime }
    return OK
  else
    let excess := zone - nrDzoneNum
    if excess < nrIndirects then writeSingle rip scale excess newZone
    else
      let i ← readInode rip
      let excess := excess - nrIndirects
      let index := excess / nrIndirects
      if i.zone (nrDzoneNum + 1) ≠ 0 then
        if nrIndirects ≤ index then return EFBIG
        else
          writeDouble rip scale (i.zone (nrDzoneNum + 1)) index (excess % nrIndirects) newZone false
      else
        let z ← allocZone i.dev (i.zone 0)
        if z = 0 then return (← globals).errCode
        else
          setZone rip (nrDzoneNum + 1) z
          if nrIndirects ≤ index then return EFBIG
          else writeDouble rip scale z index (excess % nrIndirects) newZone true

/-- The loop of `clear_zone` over `n` blocks from `b` on. -/
def clearBlocks (dev : ℕ) : ℕ → ℕ → CacheM PUnit
  | 0, _ => pure ⟨⟩
  | n + 1, b => do
    let bp ← getBlock dev b .noRead
    zeroBlock bp
    putBlock (.to bp) .fullDataBlock
    clearBlocks dev n (b + 1)

/-- `clear_zone(rip, pos, flag)` -/
def clearZone (rip : InodeId) (pos : ℤ) (flag : Bool) : FsM PUnit := do
  let scale ← scaleFactor rip
  if scale = 0 then pure ⟨⟩
  else
    let zoneSize : ℤ := blockSize * 2 ^ scale
    let pos := if flag then pos / zoneSize * zoneSize else pos
    let next := pos + blockSize - 1
    if next / zoneSize ≠ pos / zoneSize then pure ⟨⟩
    else
      let blo ← readMap rip next
      if blo = 0 then pure ⟨⟩
      else
        let bhi := (blo / 2 ^ scale + 1) * 2 ^ scale - 1
        -- `b <= bhi` holds of every 16-bit `b`
        if 65535 ≤ bhi then throw .endless
        else
          let dev := (← readInode rip).dev
          liftC (clearBlocks dev (bhi + 1 - blo) blo)

/-- The zone that `new_block` allocates, and the block in it; `none` is an error. -/
def newZone (rip : InodeId) (position : ℤ) : FsM (Option ℕ) := do
  let i ← readInode rip
  let near ← if i.size = 0 then do
      let sp ← getSuper i.dev
      pure (← readSuper sp).firstdatazone
    else pure (i.zone 0)
  let z ← allocZone i.dev near
  if z = 0 then return none
  else
    let r ← writeMap rip position z
    if r ≠ OK then
      freeZone i.dev z
      setErr r
      return none
    else
      if position ≠ (← readInode rip).size then clearZone rip position true
      let scale ← scaleFactor rip
      let zoneSize : ℤ := blockSize * 2 ^ scale
      return some (toShort (z * 2 ^ scale + (position % zoneSize / blockSize).toNat))

/-- `new_block(rip, position)` -/
def newBlock (rip : InodeId) (position : ℤ) : FsM (Option BufId) := do
  let b ← readMap rip position
  let found ← if b = 0 then newZone rip position else pure (some b)
  match found with
  | none => return none
  | some b =>
    let dev := (← readInode rip).dev
    let bp ← liftC (getBlock dev b .noRead)
    liftC (zeroBlock bp)
    return some bp

/-- `wipe_inode(rip)` -/
def wipeInode (rip : InodeId) : FsM PUnit :=
  modInode rip fun x => { x with size := 0, update := mtime, dirt := true, zone := fun _ => 0 }

/-- The loop of `truncate` over the zones of the file. -/
def freeZones (rip : InodeId) (dev scale : ℕ) : ℕ → ℤ → FsM PUnit
  | 0, _ => pure ⟨⟩
  | n + 1, position => do
    let b ← readMap rip position
    if b ≠ 0 then freeZone dev (b / 2 ^ scale)
    freeZones rip dev scale n (position + blockSize * 2 ^ scale)

/-- The single indirect zones of a double indirect block. -/
def freeIndirects (dev : ℕ) (bp : BufId) : ℕ → ℕ → FsM PUnit
  | 0, _ => pure ⟨⟩
  | n + 1, i => do
    let data ← liftC (readBuf bp)
    freeZone dev (getInd data i)
    freeIndirects dev bp n (i + 1)

/-- `truncate(rip)` -/
def truncate (rip : InodeId) : FsM PUnit := do
  let i ← readInode rip
  if i.type = iCharSpecial ∨ i.type = iBlockSpecial then pure ⟨⟩
  else
    let scale ← scaleFactor rip
    if i.pipe then modInode rip fun x => { x with size := pipeSize }
    let size := (← readInode rip).size
    let zoneSize : ℤ := blockSize * 2 ^ scale
    freeZones rip i.dev scale ((size + zoneSize - 1) / zoneSize).toNat 0
    freeZone i.dev (i.zone nrDzoneNum)
    let z := i.zone (nrDzoneNum + 1)
    if z ≠ 0 then
      let bp ← liftC (getBlock i.dev (toShort (z * 2 ^ scale)) .normal)
      freeIndirects i.dev bp nrIndirects 0
      liftC (putBlock (.to bp) .indirectBlock)
      freeZone i.dev z
    if i.pipe then wipeInode rip
    modInode rip fun x => { x with dirt := true }

/-! ## §3 The Inode Table -/

/-- `clock_time()` -/
def clockTime : FsM ℤ := do
  let g ← globals
  let now := g.clock g.tick
  modGlobals fun g => { g with tick := g.tick + 1 }
  let sp ← getSuper g.rootDev
  modSuper sp fun x => { x with time := now, dirt := if x.rdOnly = 0 then true else x.dirt }
  return now

/-- `update_times(rip)` -/
def updateTimes (rip : InodeId) : FsM PUnit := do
  let now ← clockTime
  modInode rip fun x =>
    { x with
      atime := if x.update &&& atime ≠ 0 then now else x.atime
      ctime := if x.update &&& ctime ≠ 0 then now else x.ctime
      mtime := if x.update &&& mtime ≠ 0 then now else x.mtime
      update := 0 }

/-- The disk inode at place `k` of a block, copied to the inode table. -/
def inodeOfBlock (b : Block) (k : ℕ) (x : Inode) : Inode :=
  let p := 32 * k
  { x with
    mode := getWord b p
    uid := getWord b (p + 2)
    size := getLong b (p + 4)
    mtime := getLong b (p + 8)
    gid := getByte b (p + 12)
    nlinks := getByte b (p + 13)
    zone := fun i => getWord b (p + 14 + 2 * i) }

/-- An inode copied to place `k` of a block. -/
def blockOfInode (x : Inode) (k : ℕ) (b : Block) : Block :=
  let p := 32 * k
  let b := putLong (putLong (putWord (putWord b p x.mode) (p + 2) x.uid) (p + 4) x.size) (p + 8) x.mtime
  let b := putByte (putByte b (p + 12) x.gid) (p + 13) x.nlinks
  (List.range nrZoneNums).foldl (fun b i => putWord b (p + 14 + 2 * i) (x.zone i)) b

/-- The block that an inode is in, and its place there. -/
def inodeBlockNr (x : Super) (num : ℕ) : ℕ :=
  toShort (toShort (num + 65535) / inodesPerBlock + x.imapBlocks + x.zmapBlocks + 2)

def inodePlace (num : ℕ) : ℕ := toShort (num + 65535) % inodesPerBlock

/-- `rw_inode(rip, rw_flag)` -/
def rwInode (rip : InodeId) (rw : RwFlag) : FsM PUnit := do
  let i ← readInode rip
  let sp ← getSuper i.dev
  let bp ← liftC (getBlock i.dev (inodeBlockNr (← readSuper sp) i.num) .normal)
  match rw with
  | .reading =>
    let data ← liftC (readBuf bp)
    modInode rip (inodeOfBlock data (inodePlace i.num))
  | .writing =>
    if i.update ≠ 0 then updateTimes rip
    let i ← readInode rip
    liftC (dirtyBuf bp (blockOfInode i (inodePlace i.num)))
  liftC (putBlock (.to bp) .inodeBlock)
  modInode rip fun x => { x with dirt := false }

/-- `free_inode(dev, numb)` -/
def freeInode (dev numb : ℕ) : FsM PUnit := do
  let sp ← getSuper dev
  let x ← readSuper sp
  liftC (freeBit x.imap numb)

/-- `put_inode(rip)` for an inode. -/
def putInodeId (rip : InodeId) : FsM PUnit := do
  modInode rip fun x => { x with count := x.count - 1 }
  let i ← readInode rip
  if i.count = 0 then
    if i.nlinks = 0 then
      truncate rip
      modInode rip fun x => { x with mode := 0 }
      freeInode i.dev i.num
    else if i.pipe then truncate rip
    modInode rip fun x => { x with pipe := false }
    if (← readInode rip).dirt then rwInode rip .writing

/-- `put_inode(rip)` -/
def putInode : Option InodeId → FsM PUnit
  | none => pure ⟨⟩
  | some rip => putInodeId rip

/-- `dup_inode(ip)` -/
def dupInode (rip : InodeId) : FsM PUnit := modInode rip fun x => { x with count := x.count + 1 }

/-- `get_inode(dev, numb)` -/
def getInode (dev numb : ℕ) : FsM (Option InodeId) := do
  let s ← get
  match firstId fun i => 0 < (s.inodes i).count ∧ (s.inodes i).dev = dev ∧ (s.inodes i).num = numb with
  | some rip =>
    dupInode rip
    return some rip
  | none =>
    -- the last free slot of the table
    match lastId fun i => (s.inodes i).count ≤ 0 with
    | none =>
      setErr ENFILE
      return none
    | some xp =>
      modInode xp fun x => { x with dev := dev, num := numb, count := 1 }
      if dev ≠ noDev then rwInode xp .reading
      modInode xp fun x => { x with update := 0 }
      return some xp

/-- `alloc_inode(dev, bits)` -/
def allocInode (dev bits : ℕ) : FsM (Option InodeId) := do
  let sp ← getSuper dev
  let x ← readSuper sp
  let b ← liftC (allocBit x.imap (toShort (x.ninodes + 1)) x.imapBlocks 0)
  if b = 0 then
    setErr ENFILE
    return none
  else
    match ← getInode noDev b with
    | none =>
      liftC (freeBit x.imap b)
      return none
    | some rip =>
      let fp ← caller
      modInode rip fun x =>
        { x with mode := bits, nlinks := 0, uid := fp.effuid, gid := fp.effgid, dev := dev }
      wipeInode rip
      return some rip

end LisaMinix.Fs.Server
