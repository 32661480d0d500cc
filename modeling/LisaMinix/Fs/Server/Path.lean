import LisaMinix.Fs.Server.Inode

/-!
# Permissions and Path Names

`forbidden` and `read_only` (`protect.c`), `fetch_name` (`utility.c`) and `path.c`.  A path is a
position in the server's buffer `user_path`; names of directory entries have `NAME_MAX` bytes,
filled up with zeros.
-/

namespace LisaMinix.Fs.Server

open LisaMinix.Library

/-! ## §1 Permissions -/

/-- `read_only(ip)` -/
def readOnly (rip : InodeId) : FsM ℤ := do
  let sp ← getSuper (← readInode rip).dev
  return if (← readSuper sp).rdOnly ≠ 0 then EROFS else OK

/-- The rwx bits of `i` that count for a user. -/
def permBits (i : Inode) (testUid testGid : ℕ) : ℕ :=
  if testUid = suUid then 7
  else
    let shift := if testUid = i.uid then 6 else if testGid = i.gid then 3 else 0
    i.mode >>> shift &&& 7

/-- What `forbidden` decides without a look at the super block. -/
def accessCode (i : Inode) (accessDesired testUid testGid : ℕ) : ℤ :=
  let perm := permBits i testUid testGid
  if perm ||| accessDesired ≠ perm then EACCES
  else if accessDesired &&& xBit ≠ 0 ∧ i.mode &&& 0o111 = 0 then EACCES
  else OK

/-- `forbidden(rip, access_desired, real_uid)` -/
def forbidden (rip : InodeId) (accessDesired : ℕ) (realUid : Bool) : FsM ℤ := do
  let fp ← caller
  let i ← readInode rip
  let r := accessCode i accessDesired (if realUid then fp.realuid else fp.effuid)
    (if realUid then fp.realgid else fp.effgid)
  if r = OK ∧ accessDesired &&& wBit ≠ 0 then readOnly rip else return r

/-! ## §2 Names from User Space -/

/-- A path name argument: its address and length, and the string in the message. -/
structure NameArg where
  addr : ℕ
  len : ℤ
  inMessage : Block

def m3String : ℤ := 14

/-- The answer of the kernel to the next copy. -/
def nextCopy : FsM ℤ := do
  let g ← globals
  modGlobals fun g => { g with tick := g.tick + 1 }
  return g.copy g.tick

/-- `fetch_name(path, len, flag)`; `m3` says that the path may be in the message. -/
def fetchName (arg : NameArg) (m3 : Bool) : FsM ℤ := do
  if arg.len ≤ 0 then
    setErr EINVAL
    return ERROR
  else if m3 ∧ arg.len ≤ m3String then
    modGlobals fun g => { g with userPath := copyBytes g.userPath 0 arg.inMessage 0 arg.len.toNat }
    return OK
  else if pathMax < arg.len then
    setErr ENAMETOOLONG
    return ERROR
  else
    let r ← nextCopy
    if r = OK then
      modGlobals fun g => { g with userPath := copyBytes g.userPath 0 g.user arg.addr arg.len.toNat }
    setErr r
    return r

/-! ## §3 Components -/

/-- A name of a directory entry, `NAME_MAX` bytes. -/
abbrev Name := List UInt8

def slash : UInt8 := 47

/-- The loops of `get_name` that skip slashes and copy a component, on a path of at most `n` more
    bytes; they return the position that they stop at. -/
def skipSlashes (path : Block) : ℕ → ℕ → ℕ
  | 0, p => p
  | n + 1, p => if path p = slash then skipSlashes path n (p + 1) else p

def component (path : Block) : ℕ → ℕ → List UInt8 × ℕ
  | 0, p => ([], p)
  | n + 1, p =>
    if path p = slash ∨ path p = 0 then ([], p)
    else
      let (rest, q) := component path n (p + 1)
      (path p :: rest, q)

def padName (l : List UInt8) : Name := (l ++ List.replicate nameMax 0).take nameMax

/-- `get_name(old_name, string)`: the component and the position of the rest; the loop over leading
    slashes is not bounded in the source. -/
def getName (path : Block) (oldName : ℕ) : Option (Name × ℕ) :=
  let start := skipSlashes path 65536 oldName
  let (string, p) := component path (oldName + pathMax - start) start
  let rest := skipSlashes path (oldName + pathMax - p) p
  if oldName + pathMax ≤ rest then none else some (padName string, rest)

/-! ## §4 Directories -/

/-- `d_inum` and `d_name` of entry `k` of a directory block. -/
def dInum (data : Block) (k : ℕ) : ℕ := getWord data (dirEntrySize * k)
def dName (data : Block) (k : ℕ) : Name :=
  (List.range nameMax).map fun i => data (dirEntrySize * k + 2 + i)

/-- `strncmp(a, b, NAME_MAX) == 0` -/
def sameName : Name → Name → Bool
  | a :: as, b :: bs => a = b && (a = 0 || sameName as bs)
  | [], [] => true
  | _, _ => false

def dot : Name := padName [46]
def dotDot : Name := padName [46, 46]
def emptyName : Name := padName []

/-- The third and fourth arguments of `search_dir`. -/
inductive DirOp where
  | lookUp
  | enter (numb : ℕ)
  | delete
  deriving DecidableEq

def DirOp.isEnter : DirOp → Bool
  | .enter _ => true
  | _ => false

/-- What the search of one block comes to: an entry that matches, a slot that `ENTER` can take, or
    nothing; with the number of slots seen. -/
inductive Found where
  | matched (k : ℕ)
  | slot (k : ℕ)
  | nothing

/-- The inner loop of `search_dir`, from entry `k` on with `n` entries to go. -/
def searchEntries (data : Block) (string : Name) (op : DirOp) (oldSlots : ℕ) :
    ℕ → ℕ → ℕ → Found × ℕ
  | 0, _, newSlots => (.nothing, newSlots)
  | n + 1, k, newSlots =>
    let newSlots := toShort (newSlots + 1)
    if oldSlots < newSlots then (if op.isEnter then .slot k else .nothing, newSlots)
    else if op.isEnter = false ∧ dInum data k ≠ 0 ∧
        (if string.headD 0 = 0 then !sameName (dName data k) dot && !sameName (dName data k) dotDot
          else sameName (dName data k) string) then (.matched k, newSlots)
    else if op.isEnter ∧ dInum data k = 0 then (.slot k, newSlots)
    else searchEntries data string op oldSlots n (k + 1) newSlots

/-- The entry that a block search has matched: its number is looked up, or it is erased, with the
    number kept at the end of the name for recovery. -/
def useEntry (ldir : InodeId) (bp : BufId) (k : ℕ) (op : DirOp) : FsM ℕ := do
  let data ← liftC (readBuf bp)
  let numb := dInum data k
  if op = .delete then
    let rip ← getInode (← readInode ldir).dev numb
    liftC (dirtyBuf bp fun data =>
      putWord (putWord data (dirEntrySize * k + 2 + nameMax - 2) numb) (dirEntrySize * k) 0)
    modInode ldir fun x => { x with update := mtime }
    putInode rip
  liftC (putBlock (.to bp) .directoryBlock)
  return numb

/-- What the loop over the blocks comes to: the call is done, `ENTER` has a slot, or the whole
    directory has been searched. -/
inductive Searched where
  | done (numb : ℕ)
  | slot (bp : BufId) (k newSlots : ℕ)
  | exhausted (newSlots : ℕ)

/-- The outer loop of `search_dir`, with `n` blocks to go. -/
def searchBlocksOf (ldir : InodeId) (string : Name) (op : DirOp) (oldSlots : ℕ) :
    ℕ → ℤ → ℕ → FsM Searched
  | 0, _, newSlots => return .exhausted newSlots
  | n + 1, pos, newSlots => do
    let b ← readMap ldir pos
    let bp ← liftC (getBlock (← readInode ldir).dev b .normal)
    let data ← liftC (readBuf bp)
    match searchEntries data string op oldSlots nrDirEntries 0 newSlots with
    | (.matched k, _) => return .done (← useEntry ldir bp k op)
    | (.slot k, newSlots) => return .slot bp k newSlots
    | (.nothing, newSlots) =>
      liftC (putBlock (.to bp) .directoryBlock)
      searchBlocksOf ldir string op oldSlots n (pos + blockSize) newSlots

/-- The end of `search_dir` for `ENTER`: the entry goes to slot `k` of the block. -/
def enterEntry (ldir : InodeId) (string : Name) (numb : ℕ) (bp : BufId)
    (k oldSlots newSlots : ℕ) : FsM ℤ := do
  liftC (dirtyBuf bp fun data =>
    putWord (copyBytes data (dirEntrySize * k + 2) (fun i => string.getD i 0) 0 nameMax)
      (dirEntrySize * k) numb)
  liftC (putBlock (.to bp) .directoryBlock)
  modInode ldir fun x =>
    { x with
      update := mtime
      dirt := true
      size := if oldSlots < newSlots then newSlots * dirEntrySize else x.size }
  return OK

/-- `search_dir(ldir_ptr, string, numb, flag)`: the code, and the number for `LOOK_UP`. -/
def searchDir (ldir : InodeId) (string : Name) (op : DirOp) : FsM (ℤ × ℕ) := do
  let i ← readInode ldir
  if i.isDir = false then return (ENOTDIR, 0)
  else
    let r ← forbidden ldir (if op = .lookUp then xBit else wBit ||| xBit) false
    if r ≠ OK then return (r, 0)
    else
      let oldSlots := toShort (i.size / dirEntrySize).toNat
      let blocks := ((i.size + blockSize - 1) / blockSize).toNat
      match ← searchBlocksOf ldir string op oldSlots blocks 0 0 with
      | .done numb => return (OK, numb)
      | .slot bp k newSlots =>
        match op with
        | .enter numb => return (← enterEntry ldir string numb bp k oldSlots newSlots, 0)
        | _ => return (ENOENT, 0)
      | .exhausted newSlots =>
        match op with
        | .enter numb =>
          let newSlots := toShort (newSlots + 1)
          if newSlots = 0 then return (EFBIG, 0)
          else match ← newBlock ldir (← readInode ldir).size with
            | none => return ((← globals).errCode, 0)
            | some bp => return (← enterEntry ldir string numb bp 0 oldSlots newSlots, 0)
        | _ => return (ENOENT, 0)

/-! ## §5 Paths -/

/-- The loop of `advance` over inodes that are mounted on. -/
def crossMounts : ℕ → InodeId → FsM (Option InodeId)
  | 0, _ => throw .endless
  | fuel + 1, rip => do
    let s ← get
    if (s.inodes rip).mount = false then return some rip
    else match firstId fun sp => (s.supers sp).imount = .to rip with
      | none => throw .endless
      | some sp =>
        putInodeId rip
        match ← getInode (← readSuper sp).dev rootInode with
        | none => return none
        | some rip => crossMounts fuel rip

/-- `advance(dirp, string)`; the recursion goes from a mounted file system to the one it is mounted
    on. -/
def advance : ℕ → Option InodeId → Name → FsM (Option InodeId)
  | 0, _, _ => throw .endless
  | fuel + 1, dirp, string => do
    match dirp with
    | none => if string.headD 0 = 0 then throw .wildPointer else return none
    | some dir =>
      let d ← readInode dir
      if string.headD 0 = 0 then getInode d.dev d.num
      else
        let (r, numb) ← searchDir dir string .lookUp
        if r ≠ OK then
          setErr r
          return none
        else match ← getInode d.dev numb with
          | none => return none
          | some rip =>
            let s ← get
            let i := s.inodes rip
            let up := if i.num = rootInode ∧ d.num = rootInode ∧ string.getD 1 0 = 46 then
                firstId fun sp => 0 < sp.val ∧ (s.supers sp).dev = i.dev
              else none
            match up with
            | none => crossMounts (nrInodes + 1) rip
            | some sp =>
              -- release the root inode and replace it by the inode mounted on
              putInodeId rip
              match (← readSuper sp).imount with
              | .to m =>
                let m ← readInode m
                let rip2 ← getInode m.dev m.num
                let rip ← advance fuel rip2 string
                putInode rip2
                match rip with
                | none => return none
                | some rip => crossMounts (nrInodes + 1) rip
              | _ => throw .wildPointer

/-- The directories that `..` can lead up through are those of mounted file systems. -/
def advanceFuel : ℕ := nrSupers + 1

/-- `strlen` of the string at `p`. -/
def strlen (path : Block) : ℕ → ℕ → ℕ
  | 0, _ => 0
  | n + 1, p => if path p = 0 then 0 else 1 + strlen path n (p + 1)

/-- Trailing `/.` are removed, for `UNLINK` and `RMDIR`. -/
def stripDots (p : ℕ) : ℕ → Block → Block
  | 0, path => path
  | n + 1, path =>
    let q := p + strlen path 65536 p
    if p + 2 < q ∧ path (q - 2) = slash ∧ path (q - 1) = 46 then
      stripDots p n (Function.update path (q - 2) 0)
    else path

/-- The loop of `last_dir` over the components. -/
def walk : ℕ → ℕ → InodeId → FsM (Option (InodeId × Name))
  | 0, _, _ => throw .endless
  | fuel + 1, path, rip => do
    match getName (← globals).userPath path with
    | none =>
      setErr ENAMETOOLONG
      putInodeId rip
      return none
    | some (string, newName) =>
      if (← globals).userPath newName = 0 then return some (rip, string)
      else
        let newIp ← advance advanceFuel (some rip) string
        putInodeId rip
        match newIp with
        | none => return none
        | some rip => walk fuel newName rip

/-- `last_dir(path, string)` -/
def lastDir (path : ℕ) : FsM (Option (InodeId × Name)) := do
  let fp ← caller
  let g ← globals
  match if g.userPath path = slash then fp.rootdir else fp.workdir with
  | none => throw .wildPointer
  | some rip =>
    if (← readInode rip).nlinks = 0 ∨ g.userPath path = 0 then
      setErr ENOENT
      return none
    else
      dupInode rip
      if g.fsCall = unlinkCall ∨ g.fsCall = rmdirCall then
        modGlobals fun g => { g with userPath := stripDots path 65536 g.userPath }
      walk 65536 path rip

/-- `eat_path(path)` -/
def eatPath (path : ℕ) : FsM (Option InodeId) := do
  match ← lastDir path with
  | none => return none
  | some (ldip, string) =>
    if string.headD 0 = 0 then return some ldip
    else
      let rip ← advance advanceFuel (some ldip) string
      putInodeId ldip
      return rip

end LisaMinix.Fs.Server
