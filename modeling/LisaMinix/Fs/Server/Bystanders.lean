import LisaMinix.Library.Respects
import LisaMinix.Fs.Server.Main

/-!
# What Most Functions Leave Alone

Descriptors, the filps that they refer to, who a process is, and which processes make their call
again, are changed by few functions of the server.  All others, from the cache to the calls on
directories, respect `Untouched`; those that open and close files still respect `Unmoved`.

- `Unmoved`, `Untouched`: what is left alone.
- `Modest`, `Steady`, `Meek`, `Shy`: changes of the globals, of a filp and of a process that leave it
  alone.
- The instances, file by file, in the order of the source.
-/

namespace LisaMinix.Fs.Server

open LisaMinix.Library Function

variable {s : FsState}

-- the instances of long programs are large
set_option synthInstance.maxSize 4096

/-! ## §1 The Relations -/

/-- Who a process is. -/
structure SameId (x y : Fproc) : Prop where
  realuid : y.realuid = x.realuid
  effuid : y.effuid = x.effuid
  realgid : y.realgid = x.realgid
  effgid : y.effgid = x.effgid
  pid : y.pid = x.pid
  pgrp : y.pgrp = x.pgrp

theorem SameId.refl (x : Fproc) : SameId x x := ⟨rfl, rfl, rfl, rfl, rfl, rfl⟩

theorem SameId.trans {x y z : Fproc} (h : SameId x y) (h' : SameId y z) : SameId x z where
  realuid := h'.realuid.trans h.realuid
  effuid := h'.effuid.trans h.effuid
  realgid := h'.realgid.trans h.realgid
  effgid := h'.effgid.trans h.effgid
  pid := h'.pid.trans h.pid
  pgrp := h'.pgrp.trans h.pgrp

/-- A process that waits for a pipe, or will be served again because it has. -/
def OnPipe (x : Fproc) : Prop := x.revived ∨ x.suspended ∧ -x.task = xpipe

/-- How many processes are to be served again. -/
def awaited (s : FsState) : ℕ := (Finset.univ.filter fun p => (s.fprocs p).revived).card

/-- A process waits for a pipe because it has before, or because it makes the call that the server
    works on and is suspended for one of `K`. -/
def Lingers (K : ℤ → Prop) (s : FsState) (p : ProcId) (y : Fproc) : Prop :=
  OnPipe (s.fprocs p) ∧ y.fd = (s.fprocs p).fd ∨
    p = s.g.fp ∧ y.fd % 256 = s.g.fsCall % 256 ∧ (OnPipe (s.fprocs p) ∧ (∃ t, K t) ∨ K xpipe)

/-- Nobody becomes somebody else, and the caller is suspended for one of `K`, or not at all. -/
structure Unmoved (K : ℤ → Prop) (s s' : FsState) : Prop where
  who : s'.g.who = s.g.who
  fp : s'.g.fp = s.g.fp
  fsCall : s'.g.fsCall = s.g.fsCall
  id : ∀ p, SameId (s.fprocs p) (s'.fprocs p)
  pipe : ∀ p, OnPipe (s'.fprocs p) → Lingers K s p (s'.fprocs p)
  reviving : s'.g.reviving + awaited s = s.g.reviving + awaited s'

/-- Moreover nothing happens to descriptors. -/
structure Untouched (K : ℤ → Prop) (s s' : FsState) : Prop extends Unmoved K s s' where
  count : ∀ f, (s'.filps f).count = (s.filps f).count
  ino : ∀ f, (s'.filps f).ino = (s.filps f).ino
  filp : ∀ p, (s'.fprocs p).filp = (s.fprocs p).filp

variable {K : ℤ → Prop}

/-- The table of processes, and who calls, are the same. -/
theorem unmoved_of_eq {s' : FsState} (hwho : s'.g.who = s.g.who) (hfp : s'.g.fp = s.g.fp)
    (hcall : s'.g.fsCall = s.g.fsCall) (hreviving : s'.g.reviving = s.g.reviving)
    (hfprocs : s'.fprocs = s.fprocs) : Unmoved K s s' where
  who := hwho
  fp := hfp
  fsCall := hcall
  id p := by
    rw [hfprocs]
    exact .refl _
  pipe p hp := by
    rw [hfprocs] at hp ⊢
    exact .inl ⟨hp, rfl⟩
  reviving := by
    unfold awaited
    rw [hfprocs, hreviving]

/-- The table of filps is the same, too. -/
theorem untouched_of_eq {s' : FsState} (hwho : s'.g.who = s.g.who) (hfp : s'.g.fp = s.g.fp)
    (hcall : s'.g.fsCall = s.g.fsCall) (hreviving : s'.g.reviving = s.g.reviving)
    (hfilps : s'.filps = s.filps) (hfprocs : s'.fprocs = s.fprocs) : Untouched K s s' where
  toUnmoved := unmoved_of_eq hwho hfp hcall hreviving hfprocs
  count f := by rw [hfilps]
  ino f := by rw [hfilps]
  filp p := by rw [hfprocs]

theorem Lingers.trans {s₁ : FsState} {p : ProcId} {y : Fproc} (h : Unmoved K s s₁)
    (hy : Lingers K s₁ p y) : Lingers K s p y := by
  rcases hy with ⟨hp, hfd⟩ | ⟨hp, hfd, hwhy⟩
  · rcases h.pipe p hp with ⟨hp0, hfd0⟩ | ⟨hp0, hfd0, hwhy⟩
    · exact .inl ⟨hp0, hfd.trans hfd0⟩
    · exact .inr ⟨hp0, by rw [hfd, hfd0], hwhy⟩
  · refine .inr ⟨hp.trans h.fp, by rw [hfd, h.fsCall], ?_⟩
    rcases hwhy with ⟨hp1, hk⟩ | hk
    · rcases h.pipe p hp1 with ⟨hp0, -⟩ | ⟨-, -, hwhy⟩
      · exact .inl ⟨hp0, hk⟩
      · exact hwhy
    · exact .inr hk

instance unmovedRefl : Std.Refl (Unmoved K) := ⟨fun _ => unmoved_of_eq rfl rfl rfl rfl rfl⟩

instance unmovedTrans : IsTrans FsState (Unmoved K) where
  trans _ _ _ h h' :=
    { who := h'.who.trans h.who
      fp := h'.fp.trans h.fp
      fsCall := h'.fsCall.trans h.fsCall
      id := fun p => (h.id p).trans (h'.id p)
      pipe := fun p hp => (h'.pipe p hp).trans h
      reviving := by
        have := h.reviving
        have := h'.reviving
        omega }

instance untouchedRefl : Std.Refl (Untouched K) := ⟨fun _ => untouched_of_eq rfl rfl rfl rfl rfl rfl⟩

instance untouchedTrans : IsTrans FsState (Untouched K) where
  trans _ _ _ h h' :=
    { toUnmoved := trans_of (Unmoved K) h.toUnmoved h'.toUnmoved
      count := fun f => (h'.count f).trans (h.count f)
      ino := fun f => (h'.ino f).trans (h.ino f)
      filp := fun p => (h'.filp p).trans (h.filp p) }

/-- A process may be made to wait for one of the tasks. -/
class Allows (K : ℤ → Prop) (task : ℤ) : Prop where
  allows : K task

/-- A program that leaves all this alone. -/
abbrev Aloof (K : ℤ → Prop) {α : Type} (p : FsM α) : Prop := Respects (Untouched K) p

instance (priority := low) unmoved_of_aloof {α : Type} {p : FsM α} [h : Aloof K p] :
    Respects (Unmoved K) p where
  run s := (h.run s).mono fun _ _ h' => h'.toUnmoved

/-! ## §2 The State -/

/-- Nobody else calls. -/
class Modest (f : Globals → Globals) : Prop where
  keeps : ∀ g, (f g).who = g.who ∧ (f g).fp = g.fp ∧ (f g).fsCall = g.fsCall ∧ (f g).reviving = g.reviving

/-- The filp has as many users, and the same inode. -/
class Steady (f : Filp → Filp) : Prop where
  keeps : ∀ x, (f x).count = x.count ∧ (f x).ino = x.ino

/-- The process is who it was, and waits for no pipe that it did not wait for. -/
class Meek (f : Fproc → Fproc) : Prop where
  id : ∀ x, SameId x (f x)
  revived : ∀ x, (f x).revived = x.revived
  pipe : ∀ x, OnPipe (f x) → OnPipe x ∧ (f x).fd = x.fd

/-- Moreover the process has open what it had. -/
class Shy (f : Fproc → Fproc) : Prop extends Meek f where
  filp : ∀ x, (f x).filp = x.filp

instance modestUpdate (superUser dontReply : Globals → Bool)
    (suspCount rdahedpos errCode fd nbytes : Globals → ℤ)
    (rdahedInode : Globals → Option InodeId) (userPath user : Globals → Block)
    (buffer rootDev bufBase inodeBase refusals tick : Globals → ℕ)
    (toUser : Globals → List (ProcId × ℕ × List UInt8)) (out : Globals → List ℤ)
    (replies : Globals → List (ℤ × ℤ)) (copy clock : Globals → ℕ → ℤ)
    (dev : Globals → ℕ → DevAnswer) :
    Modest fun g =>
      { who := g.who, fp := g.fp, superUser := superUser g, fsCall := g.fsCall
        dontReply := dontReply g, suspCount := suspCount g, reviving := g.reviving
        rdahedpos := rdahedpos g, rdahedInode := rdahedInode g, userPath := userPath g
        errCode := errCode g, fd := fd g, buffer := buffer g, nbytes := nbytes g
        rootDev := rootDev g, bufBase := bufBase g, inodeBase := inodeBase g, user := user g
        toUser := toUser g, out := out g, replies := replies g, refusals := refusals g
        copy := copy g, clock := clock g, dev := dev g, tick := tick g } :=
  ⟨fun _ => ⟨rfl, rfl, rfl, rfl⟩⟩

instance modestIte {c : Globals → Prop} [∀ g, Decidable (c g)] {f h : Globals → Globals} [hf : Modest f]
    [hh : Modest h] : Modest fun g => if c g then f g else h g where
  keeps g := by
    split
    · exact hf.keeps g
    · exact hh.keeps g

instance modestId : Modest fun g => g := ⟨fun _ => ⟨rfl, rfl, rfl, rfl⟩⟩

instance steadyUpdate (mode flags : Filp → ℕ) (pos : Filp → ℤ) :
    Steady fun x =>
      { mode := mode x, flags := flags x, count := x.count, ino := x.ino, pos := pos x } :=
  ⟨fun _ => ⟨rfl, rfl⟩⟩

instance meekUpdate (umask tty buffer : Fproc → ℕ) (workdir rootdir : Fproc → Option InodeId)
    (filp : Fproc → ℕ → Option FilpId) (nbytes : Fproc → ℤ) :
    Meek fun x =>
      { umask := umask x, workdir := workdir x, rootdir := rootdir x, filp := filp x
        realuid := x.realuid, effuid := x.effuid, realgid := x.realgid, effgid := x.effgid
        tty := tty x, fd := x.fd, buffer := buffer x, nbytes := nbytes x
        suspended := x.suspended, revived := x.revived, task := x.task, pid := x.pid
        pgrp := x.pgrp } :=
  ⟨fun _ => ⟨rfl, rfl, rfl, rfl, rfl, rfl⟩, fun _ => rfl, fun _ h => ⟨h, rfl⟩⟩

instance shyUpdate (umask tty buffer : Fproc → ℕ) (workdir rootdir : Fproc → Option InodeId)
    (nbytes : Fproc → ℤ) :
    Shy fun x =>
      { umask := umask x, workdir := workdir x, rootdir := rootdir x, filp := x.filp
        realuid := x.realuid, effuid := x.effuid, realgid := x.realgid, effgid := x.effgid
        tty := tty x, fd := x.fd, buffer := buffer x, nbytes := nbytes x
        suspended := x.suspended, revived := x.revived, task := x.task, pid := x.pid
        pgrp := x.pgrp } where
  toMeek := meekUpdate umask tty buffer workdir rootdir Fproc.filp nbytes
  filp _ := rfl

instance shyWake : Shy fun x => { x with suspended := false } where
  id _ := ⟨rfl, rfl, rfl, rfl, rfl, rfl⟩
  revived _ := rfl
  pipe x h := by
    refine ⟨.inl ?_, rfl⟩
    simpa [OnPipe] using h
  filp _ := rfl

section

variable {α : Type}
variable {p : ProcId}

/-- As many processes are to be served again. -/
theorem awaited_of_eq {s s' : FsState} (h : ∀ p, (s'.fprocs p).revived = (s.fprocs p).revived) :
    awaited s' = awaited s := by
  unfold awaited
  simp only [h]

instance liftC_aloof {p : CacheM α} : Aloof K (liftC p) where
  run s := by
    rw [wp_liftC]
    unfold Wp
    split
    · exact trivial
    · exact untouched_of_eq rfl rfl rfl rfl rfl rfl

instance readInode_aloof {i : InodeId} : Aloof K (readInode i) := ⟨fun s => refl s⟩
instance readSuper_aloof {sp : SuperId} : Aloof K (readSuper sp) := ⟨fun s => refl s⟩
instance readFilp_aloof {f : FilpId} : Aloof K (readFilp f) := ⟨fun s => refl s⟩
instance readProc_aloof : Aloof K (readProc p) := ⟨fun s => refl s⟩
instance globals_aloof : Aloof K globals := ⟨fun s => refl s⟩
instance caller_aloof : Aloof K caller := ⟨fun s => refl s⟩
instance errCode_aloof : Aloof K errCode := ⟨fun s => refl s⟩

instance modInode_aloof {i : InodeId} {f : Inode → Inode} : Aloof K (modInode i f) :=
  ⟨fun _ => untouched_of_eq rfl rfl rfl rfl rfl rfl⟩

instance modSuper_aloof {sp : SuperId} {f : Super → Super} : Aloof K (modSuper sp f) :=
  ⟨fun _ => untouched_of_eq rfl rfl rfl rfl rfl rfl⟩

instance modGlobals_aloof {f : Globals → Globals} [h : Modest f] : Aloof K (modGlobals f) where
  run s := by
    obtain ⟨hwho, hfp, hcall, hreviving⟩ := h.keeps s.g
    exact untouched_of_eq hwho hfp hcall hreviving rfl rfl

instance setErr_aloof {e : ℤ} : Aloof K (setErr e) :=
  ⟨fun _ => untouched_of_eq rfl rfl rfl rfl rfl rfl⟩

instance modFilp_unmoved {i : FilpId} {f : Filp → Filp} : Respects (Unmoved K) (modFilp i f) :=
  ⟨fun _ => unmoved_of_eq rfl rfl rfl rfl rfl⟩

instance modFilp_aloof {i : FilpId} {f : Filp → Filp} [h : Steady f] : Aloof K (modFilp i f) where
  run s := by
    have hsame : ∀ j, (update s.filps i (f (s.filps i)) j).count = (s.filps j).count ∧
        (update s.filps i (f (s.filps i)) j).ino = (s.filps j).ino := by
      intro j
      rcases eq_or_ne j i with rfl | hj
      · rw [update_self]
        exact h.keeps _
      · rw [update_of_ne hj]
        exact ⟨rfl, rfl⟩
    exact ⟨unmoved_of_eq rfl rfl rfl rfl rfl, fun j => (hsame j).1, fun j => (hsame j).2, fun _ => rfl⟩

/-- Only processes are changed, none of them much. -/
theorem unmoved_procs {s : FsState} {t : ProcId → Fproc} (hid : ∀ p, SameId (s.fprocs p) (t p))
    (hrevived : ∀ p, (t p).revived = (s.fprocs p).revived)
    (hpipe : ∀ p, OnPipe (t p) → Lingers K s p (t p)) : Unmoved K s { s with fprocs := t } where
  who := rfl
  fp := rfl
  fsCall := rfl
  id := hid
  pipe := hpipe
  reviving := by
    have hsame : awaited { s with fprocs := t } = awaited s := awaited_of_eq hrevived
    rw [hsame]

theorem update_same_or (s : FsState) (p q : ProcId) (x : Fproc) :
    update s.fprocs p x q = s.fprocs q ∨ q = p ∧ update s.fprocs p x q = x := by
  rcases eq_or_ne q p with rfl | hq
  · exact .inr ⟨rfl, update_self ..⟩
  · exact .inl (update_of_ne hq ..)

instance modProc_unmoved {f : Fproc → Fproc} [h : Meek f] : Respects (Unmoved K) (modProc p f) where
  run s := by
    apply unmoved_procs
    · intro q
      rcases update_same_or s p q (f (s.fprocs p)) with hq | ⟨rfl, hq⟩ <;> rw [hq]
      · exact .refl _
      · exact h.id _
    · intro q
      rcases update_same_or s p q (f (s.fprocs p)) with hq | ⟨rfl, hq⟩ <;> rw [hq]
      exact h.revived _
    · intro q
      rcases update_same_or s p q (f (s.fprocs p)) with hq | ⟨rfl, hq⟩ <;> rw [hq]
      · exact fun hp => .inl ⟨hp, rfl⟩
      · exact fun hp => .inl (h.pipe _ hp)

instance modProc_aloof {f : Fproc → Fproc} [h : Shy f] : Aloof K (modProc p f) where
  run s := by
    have hfilp : ∀ q, (update s.fprocs p (f (s.fprocs p)) q).filp = (s.fprocs q).filp := by
      intro q
      rcases update_same_or s p q (f (s.fprocs p)) with hq | ⟨rfl, hq⟩ <;> rw [hq]
      exact h.filp _
    exact ⟨(modProc_unmoved (K := K) (p := p) (f := f)).run s, fun _ => rfl, fun _ => rfl, hfilp⟩

instance forAll_respects {R : FsState → FsState → Prop} [Std.Refl R] [IsTrans FsState R]
    {f : α → FsM PUnit} {l : List α} [h : ∀ a, Respects R (f a)] : Respects R (forAll f l) := by
  induction l with
  | nil => exact .pure _
  | cons a l ih => exact .bind

end

/-! ## §3 `super.c`, `inode.c` and the Zones -/

section

variable {dev : ℕ} {rip : InodeId} {sp : SuperId}
variable {position : ℤ} {n i z numb scale excess : ℕ} {bp : BufId}

instance getSuper_aloof : Aloof K (getSuper dev) := by
  unfold getSuper
  apply Respects.andThen
  intro s
  split <;> infer_instance

instance readSuperBlock_aloof : Aloof K (readSuperBlock sp) := by
  unfold readSuperBlock
  infer_instance

instance writeSuperBlock_aloof : Aloof K (writeSuperBlock sp) := by
  unfold writeSuperBlock
  infer_instance

instance scaleFactor_aloof : Aloof K (scaleFactor rip) := by
  unfold scaleFactor
  infer_instance

instance readMap_aloof : Aloof K (readMap rip position) := by
  unfold readMap
  infer_instance

instance loadMap_aloof {set : ℕ → BufId → FsM PUnit} [∀ i bp, Aloof K (set i bp)] {block : ℕ} :
    Aloof K (loadMap set dev n i block) := by
  induction n generalizing i block with
  | zero => exact .pure _
  | succ n ih =>
    unfold loadMap
    infer_instance

instance setImap_aloof : Aloof K (setImap sp i bp) := modSuper_aloof
instance setZmap_aloof : Aloof K (setZmap sp i bp) := modSuper_aloof

instance busyBits_aloof {p : Ptr BufId} {bits : ℕ} : Aloof K (busyBits p bits) := by
  unfold busyBits
  split <;> infer_instance

instance loadBitMaps_aloof : Aloof K (loadBitMaps dev) := by
  unfold loadBitMaps
  dsimp only
  infer_instance

instance unloadMap_aloof {map : ℕ → Ptr BufId} {blockType : BlockType} :
    Aloof K (unloadMap map blockType n i) := by
  induction n generalizing i with
  | zero => exact .pure _
  | succ n ih =>
    unfold unloadMap
    infer_instance

instance unloadBitMaps_aloof : Aloof K (unloadBitMaps dev) := by
  unfold unloadBitMaps
  infer_instance

instance mounted_aloof : Aloof K (mounted rip) := by
  unfold mounted
  infer_instance

instance allocZone_aloof : Aloof K (allocZone dev z) := by
  unfold allocZone
  infer_instance

instance freeZone_aloof : Aloof K (freeZone dev numb) := by
  unfold freeZone
  infer_instance

instance setZone_aloof : Aloof K (setZone rip i z) := modInode_aloof

instance writeIndirect_aloof {newZone : ℕ} {newInd : Bool} :
    Aloof K (writeIndirect rip scale z excess newZone newInd) := by
  unfold writeIndirect
  dsimp only
  infer_instance

instance writeSingle_aloof {newZone : ℕ} : Aloof K (writeSingle rip scale excess newZone) := by
  unfold writeSingle
  infer_instance

instance writeDouble_aloof {index newZone : ℕ} {newDbl : Bool} :
    Aloof K (writeDouble rip scale z index excess newZone newDbl) := by
  unfold writeDouble
  dsimp only
  infer_instance

instance writeMap_aloof {newZone : ℕ} : Aloof K (writeMap rip position newZone) := by
  unfold writeMap
  dsimp only
  infer_instance

instance clearZone_aloof {pos : ℤ} {flag : Bool} : Aloof K (clearZone rip pos flag) := by
  unfold clearZone
  infer_instance

instance newZone_aloof : Aloof K (newZone rip position) := by
  unfold newZone
  dsimp only
  infer_instance

instance newBlock_aloof : Aloof K (newBlock rip position) := by
  unfold newBlock
  dsimp only
  infer_instance

instance wipeInode_aloof : Aloof K (wipeInode rip) := modInode_aloof

instance freeZones_aloof : Aloof K (freeZones rip dev scale n position) := by
  induction n generalizing position with
  | zero => exact .pure _
  | succ n ih =>
    unfold freeZones
    infer_instance

instance freeIndirects_aloof : Aloof K (freeIndirects dev bp n i) := by
  induction n generalizing i with
  | zero => exact .pure _
  | succ n ih =>
    unfold freeIndirects
    infer_instance

instance truncate_aloof : Aloof K (truncate rip) := by
  unfold truncate
  dsimp only
  infer_instance

instance clockTime_aloof : Aloof K clockTime := by
  unfold clockTime
  infer_instance

instance updateTimes_aloof : Aloof K (updateTimes rip) := by
  unfold updateTimes
  infer_instance

instance rwInode_aloof {rw : RwFlag} : Aloof K (rwInode rip rw) := by
  unfold rwInode
  cases rw <;> dsimp only <;> infer_instance

instance freeInode_aloof : Aloof K (freeInode dev numb) := by
  unfold freeInode
  infer_instance

instance putInodeId_aloof : Aloof K (putInodeId rip) := by
  unfold putInodeId
  dsimp only
  infer_instance

instance putInode_aloof {rip : Option InodeId} : Aloof K (putInode rip) := by
  cases rip with
  | none => exact .pure _
  | some rip => exact putInodeId_aloof

instance dupInode_aloof : Aloof K (dupInode rip) := modInode_aloof

instance getInode_aloof : Aloof K (getInode dev numb) := by
  unfold getInode
  apply Respects.andThen
  intro s
  split
  · infer_instance
  · split <;> infer_instance

instance allocInode_aloof {bits : ℕ} : Aloof K (allocInode dev bits) := by
  unfold allocInode
  infer_instance

end

/-! ## §4 `protect.c`, `utility.c` and `path.c` -/

section

variable {rip ldir : InodeId} {string : Name} {op : DirOp} {path fuel : ℕ}

instance readOnly_aloof : Aloof K (readOnly rip) := by
  unfold readOnly
  infer_instance

instance forbidden_aloof {accessDesired : ℕ} {realUid : Bool} :
    Aloof K (forbidden rip accessDesired realUid) := by
  unfold forbidden
  infer_instance

instance nextCopy_aloof : Aloof K nextCopy := by
  unfold nextCopy
  infer_instance

instance fetchName_aloof {arg : NameArg} {m3 : Bool} : Aloof K (fetchName arg m3) := by
  unfold fetchName
  infer_instance

instance useEntry_aloof {bp : BufId} {k : ℕ} : Aloof K (useEntry ldir bp k op) := by
  unfold useEntry
  dsimp only
  infer_instance

instance searchBlocksOf_aloof {oldSlots n newSlots : ℕ} {pos : ℤ} :
    Aloof K (searchBlocksOf ldir string op oldSlots n pos newSlots) := by
  induction n generalizing pos newSlots with
  | zero => exact .pure _
  | succ n ih =>
    unfold searchBlocksOf
    apply Respects.andThen
    intro b
    apply Respects.andThen
    intro i
    apply Respects.andThen
    intro bp
    apply Respects.andThen
    intro data
    split <;> infer_instance

instance enterEntry_aloof {numb k oldSlots newSlots : ℕ} {bp : BufId} :
    Aloof K (enterEntry ldir string numb bp k oldSlots newSlots) := by
  unfold enterEntry
  infer_instance

/-- `ENTER` may take a new block. -/
instance searchDir_aloof : Aloof K (searchDir ldir string op) := by
  unfold searchDir
  apply Respects.andThen
  intro i
  split
  · infer_instance
  apply Respects.andThen
  intro r
  split
  · infer_instance
  apply Respects.andThen
  intro x
  split
  · infer_instance
  · split <;> infer_instance
  · dsimp only
    split
    · split
      · infer_instance
      · apply Respects.andThen
        intro i
        apply Respects.andThen
        intro bp
        split <;> infer_instance
    · infer_instance

/-- The root of a file system is replaced by what it is mounted on. -/
instance crossMounts_aloof : Aloof K (crossMounts fuel rip) := by
  induction fuel generalizing rip with
  | zero => exact .throw _
  | succ fuel ih =>
    unfold crossMounts
    apply Respects.andThen
    intro s
    split
    · infer_instance
    split
    · infer_instance
    apply Respects.andThen
    intro _
    apply Respects.andThen
    intro sp
    apply Respects.andThen
    intro rip
    split <;> infer_instance

/-- `..` at a root, and a mount point, are searched for in the super blocks. -/
instance advance_aloof {dirp : Option InodeId} : Aloof K (advance fuel dirp string) := by
  induction fuel generalizing dirp string with
  | zero => exact .throw _
  | succ fuel ih =>
    unfold advance
    split
    · infer_instance
    apply Respects.andThen
    intro d
    split
    · infer_instance
    apply Respects.andThen
    intro r
    split
    split
    · infer_instance
    apply Respects.andThen
    intro rip
    split
    · infer_instance
    apply Respects.andThen
    intro s
    dsimp only
    split
    · infer_instance
    apply Respects.andThen
    intro _
    apply Respects.andThen
    intro sp
    split <;> infer_instance

instance walk_aloof : Aloof K (walk fuel path rip) := by
  induction fuel generalizing path rip with
  | zero => exact .throw _
  | succ fuel ih =>
    unfold walk
    apply Respects.andThen
    intro g
    split
    · infer_instance
    apply Respects.andThen
    intro g
    split
    · infer_instance
    infer_instance

instance lastDir_aloof : Aloof K (lastDir path) := by
  unfold lastDir
  apply Respects.andThen
  intro fp
  apply Respects.andThen
  intro g
  split <;> infer_instance

instance eatPath_aloof : Aloof K (eatPath path) := by
  unfold eatPath
  infer_instance

end

/-! ## §5 `filedes.c`, `pipe.c`, `device.c` and `read.c` -/

section

variable {rip : InodeId} {f : FilpId} {procNr bytes position : ℤ} {dev oflags : ℕ} {rw : RwFlag}
variable {a : AheadArgs} {n off : ℕ} {usr : ProcId}

instance getFilp_aloof {fild : ℤ} : Aloof K (getFilp fild) := by
  unfold getFilp
  infer_instance

instance getFd_aloof {start bits : ℕ} : Aloof K (getFd start bits) := by
  unfold getFd
  apply Respects.andThen
  intro fp
  split
  · infer_instance
  · apply Respects.andThen
    intro s
    split <;> infer_instance

instance findFilp_aloof {bits : ℕ} : Aloof K (findFilp rip bits) := by
  unfold findFilp
  infer_instance

instance filpInode_aloof : Aloof K (filpInode f) := by
  unfold filpInode
  apply Respects.andThen
  intro x
  split <;> infer_instance

instance reply_aloof {whom result : ℤ} : Aloof K (reply whom result) := by
  unfold reply
  infer_instance

/-- The caller, suspended for a task. -/
def sleeper (s : FsState) (task : ℤ) : Fproc :=
  { s.fprocs s.g.fp with
    suspended := true
    fd := s.g.fd * 256 + s.g.fsCall
    buffer := s.g.buffer
    nbytes := s.g.nbytes
    task := -task }

theorem sleeper_untouched (s : FsState) {task : ℤ} (hk : K task) :
    Untouched K s { s with fprocs := update s.fprocs s.g.fp (sleeper s task) } where
  toUnmoved := by
    apply unmoved_procs
    · intro q
      rcases update_same_or s s.g.fp q (sleeper s task) with hq | ⟨rfl, hq⟩ <;> rw [hq]
      · exact .refl _
      · exact ⟨rfl, rfl, rfl, rfl, rfl, rfl⟩
    · intro q
      rcases update_same_or s s.g.fp q (sleeper s task) with hq | ⟨rfl, hq⟩ <;> rw [hq]
      rfl
    · intro q
      rcases update_same_or s s.g.fp q (sleeper s task) with hq | ⟨rfl, hq⟩ <;> rw [hq]
      · exact fun hp => .inl ⟨hp, rfl⟩
      · intro hp
        have hfd : (sleeper s task).fd = s.g.fd * 256 + s.g.fsCall := rfl
        refine .inr ⟨rfl, by omega, ?_⟩
        -- it waits for a pipe from now on, or has before
        rcases hp with hrevived | ⟨-, htask⟩
        · exact .inl ⟨.inl hrevived, task, hk⟩
        · have : task = xpipe := (neg_neg task).symm.trans htask
          exact .inr (this ▸ hk)
  count _ := rfl
  ino _ := rfl
  filp q := by
    dsimp only
    rcases update_same_or s s.g.fp q (sleeper s task) with hq | ⟨rfl, hq⟩ <;> rw [hq]
    rfl

instance suspend_aloof {task : ℤ} [hk : Allows K task] : Aloof K (suspend task) where
  run s := by
    unfold suspend
    rw [wp_bind, wp_globals, wp_bind, wp_modProc, wp_modGlobals]
    apply trans_of (Untouched K) (sleeper_untouched s hk.allows)
    exact untouched_of_eq rfl rfl rfl rfl rfl rfl

/-- One more process is to be served again. -/
theorem awaited_revive {s : FsState} {p : ProcId} (h : (s.fprocs p).revived = false) (g : Globals) :
    awaited { s with
      fprocs := update s.fprocs p { s.fprocs p with revived := true }, g := g } =
      awaited s + 1 := by
  have hnew : (Finset.univ.filter fun q => (update s.fprocs p
      { s.fprocs p with revived := true } q).revived) =
      insert p (Finset.univ.filter fun q => (s.fprocs q).revived) := by
    ext q
    rcases eq_or_ne q p with rfl | hq
    · simp
    · simp [hq]
  have hold : p ∉ Finset.univ.filter fun q => ((s.fprocs q).revived : Prop) := by
    simp [h]
  unfold awaited
  dsimp only
  rw [hnew, Finset.card_insert_of_notMem hold]

theorem revive_pipe {s : FsState} {p : ProcId} (hsusp : (s.fprocs p).suspended = true)
    (hrevived : (s.fprocs p).revived = false) (htask : -(s.fprocs p).task = xpipe) :
    Untouched K s { s with
      fprocs := update s.fprocs p { s.fprocs p with revived := true }
      g := { s.g with reviving := s.g.reviving + 1 } } where
  who := rfl
  fp := rfl
  fsCall := rfl
  id q := by
    dsimp only
    rcases update_same_or s p q { s.fprocs p with revived := true } with hq | ⟨rfl, hq⟩ <;> rw [hq]
    · exact .refl _
    · exact ⟨rfl, rfl, rfl, rfl, rfl, rfl⟩
  pipe q := by
    dsimp only
    rcases update_same_or s p q { s.fprocs p with revived := true } with hq | ⟨rfl, hq⟩ <;> rw [hq]
    · exact fun hq => .inl ⟨hq, rfl⟩
    · exact fun _ => .inl ⟨.inr ⟨hsusp, htask⟩, rfl⟩
  reviving := by
    rw [awaited_revive hrevived]
    push_cast
    ring
  count _ := rfl
  ino _ := rfl
  filp q := by
    dsimp only
    rcases update_same_or s p q { s.fprocs p with revived := true } with hq | ⟨rfl, hq⟩ <;> rw [hq]

instance revive_aloof : Aloof K (revive procNr bytes) where
  run s := by
    unfold revive
    split
    swap
    · trivial
    next h =>
    rw [wp_bind, wp_readProc]
    have hwake : ∀ p : ProcId, ∀ x : Fproc, Aloof K (do
        modProc p fun x => { x with suspended := false }
        if -x.task = xopen then reply procNr (x.fd / 256)
        else
          modProc p fun x => { x with nbytes := bytes }
          reply procNr bytes) := fun p x => inferInstance
    split
    · exact refl s
    next hwaits =>
    split
    · next htask =>
      rw [wp_bind, wp_modProc, wp_modGlobals]
      simp only [not_or, Bool.not_eq_false, Bool.not_eq_true] at hwaits
      exact revive_pipe hwaits.1 hwaits.2 htask
    · exact (hwake _ _).run s

instance releaseFrom_aloof {ip : InodeId} {callNr : ℕ} {l : List ProcId} {count : ℤ} :
    Aloof K (releaseFrom ip callNr l count) := by
  induction l generalizing count with
  | nil => exact .pure _
  | cons rp rest ih =>
    unfold releaseFrom
    apply Respects.andThen
    intro x
    split
    · split <;> infer_instance
    · infer_instance

instance release_aloof {ip : InodeId} {callNr : ℕ} {count : ℤ} : Aloof K (release ip callNr count) :=
  releaseFrom_aloof

instance pipeCheck_aloof [Allows K xpipe] : Aloof K (pipeCheck rip rw oflags bytes position) := by
  unfold pipeCheck
  cases rw <;> dsimp only <;> infer_instance

instance reviveAll_aloof {l : List (ℤ × ℤ)} : Aloof K (reviveAll l) := forAll_respects

instance rwDev_aloof : Aloof K rwDev := by
  unfold rwDev
  infer_instance

instance cancelDev_aloof : Aloof K (cancelDev procNr) := by
  unfold cancelDev
  infer_instance

instance devIo_aloof [∀ major, Allows K (dmapTask major)] : Aloof K (devIo dev) := by
  unfold devIo
  infer_instance

instance ttyOpen_aloof : Aloof K (ttyOpen dev) := by
  unfold ttyOpen
  dsimp only
  infer_instance

instance devOpen_aloof : Aloof K (devOpen rip) := by
  unfold devOpen
  infer_instance

instance devClose_aloof : Aloof K (devClose rip) := by
  unfold devClose
  infer_instance

instance aheadBlock_aloof : Aloof K (aheadBlock a position) := by
  unfold aheadBlock
  infer_instance

instance aheadStep_aloof {readingAhead : Bool} {st : Ahead} :
    Aloof K (aheadStep a readingAhead st) := by
  unfold aheadStep
  dsimp only
  infer_instance

instance aheadLoop_aloof {readingAhead : Bool} {st : Ahead} :
    Aloof K (aheadLoop a readingAhead n st) := by
  induction n generalizing st with
  | zero => exact .pure _
  | succ n ih =>
    unfold aheadLoop
    infer_instance

instance rahead_aloof {baseblock : ℕ} {bytesAhead : ℤ} :
    Aloof K (rahead rip baseblock position bytesAhead) := by
  unfold rahead
  dsimp only
  infer_instance

instance readAhead_aloof : Aloof K (readAhead rip) := by
  unfold readAhead
  dsimp only
  infer_instance

instance rwUser_aloof {vir : ℕ} {bp : BufId} : Aloof K (rwUser rw usr vir n bp off) := by
  unfold rwUser
  cases rw <;> dsimp only <;> infer_instance

instance chunkBuf_aloof {chunk : ℕ} {left : ℤ} :
    Aloof K (chunkBuf rip position off chunk left rw) := by
  unfold chunkBuf
  cases rw <;> dsimp only <;> infer_instance

instance rwChunk_aloof {chunk buff : ℕ} {left : ℤ} :
    Aloof K (rwChunk rip position off chunk left rw buff usr) := by
  unfold rwChunk
  infer_instance

instance rwLoop_aloof {blockSpec : Bool} {fSize r cumIo : ℤ} :
    Aloof K (rwLoop rip blockSpec fSize rw usr n r position cumIo) := by
  induction n generalizing r position cumIo with
  | zero => exact .pure _
  | succ n ih =>
    unfold rwLoop
    dsimp only
    infer_instance

instance rwFinish_aloof {fSize r cumIo : ℤ} :
    Aloof K (rwFinish f rip fSize rw r position cumIo) := by
  unfold rwFinish
  dsimp only
  cases rw <;> dsimp only <;> infer_instance

instance rwFile_aloof [Allows K xpipe] : Aloof K (rwFile f rip rw usr) := by
  unfold rwFile
  dsimp only
  infer_instance

instance rwChar_aloof [∀ major, Allows K (dmapTask major)] : Aloof K (rwChar f rip rw) := by
  unfold rwChar
  infer_instance

instance mmDescriptor_aloof : Aloof K mmDescriptor := by
  unfold mmDescriptor
  infer_instance

instance readWrite_aloof [Allows K xpipe] [∀ major, Allows K (dmapTask major)] :
    Aloof K (readWrite rw) := by
  unfold readWrite
  dsimp only
  infer_instance

end

/-! ## §6 `open.c` and `misc.c` -/

section

variable {rip ldir : InodeId} {f : FilpId} {q : Request} {bits oflags omode : ℕ} {string : Name}

instance openPath_aloof {arg : NameArg} {m3 : Bool} : Aloof K (openPath arg m3) := by
  unfold openPath
  infer_instance

instance makeNode_aloof {z : ℕ} {lsize : ℤ} : Aloof K (makeNode ldir string bits z lsize) := by
  unfold makeNode
  infer_instance

instance newNode_aloof {z : ℕ} {lsize : ℤ} : Aloof K (newNode bits z lsize) := by
  unfold newNode
  infer_instance

instance pipeOpen_aloof [Allows K xopen] : Aloof K (pipeOpen rip bits oflags) := by
  unfold pipeOpen
  dsimp only
  infer_instance

instance openExisting_aloof [Allows K xopen] : Aloof K (openExisting rip bits oflags) := by
  unfold openExisting
  dsimp only
  infer_instance

instance openInode_aloof : Aloof K (openInode oflags omode) := by
  unfold openInode
  infer_instance

instance doMknod_aloof : Aloof K (doMknod q) := by
  unfold doMknod
  infer_instance

instance finishMkdir_aloof {entered : Bool} : Aloof K (finishMkdir rip ldir string entered) := by
  unfold finishMkdir
  dsimp only
  infer_instance

instance doMkdir_aloof : Aloof K (doMkdir q) := by
  unfold doMkdir
  infer_instance

instance doLseek_aloof : Aloof K (doLseek q) := by
  unfold doLseek
  dsimp only
  infer_instance

instance doSync_aloof : Aloof K doSync := by
  unfold doSync
  infer_instance

instance closeSpecial_aloof : Aloof K (closeSpecial f rip) := by
  unfold closeSpecial
  dsimp only
  infer_instance

instance dupPtr_aloof {rip : Option InodeId} : Aloof K (dupPtr rip) := by
  cases rip with
  | none => exact .throw _
  | some rip => exact dupInode_aloof

/-- A process that waits for a pipe is left alone. -/
instance doUnpause_aloof {pro : ℤ} : Aloof K (doUnpause pro) := by
  unfold doUnpause
  apply Respects.andThen
  intro g
  split
  · infer_instance
  split
  swap
  · infer_instance
  apply Respects.andThen
  intro x
  split
  · infer_instance
  split
  · infer_instance
  split
  · dsimp only
    split
    · infer_instance
    · split <;> infer_instance
  · infer_instance

/-- The terminal of a process does not count as what it has open. -/
instance ttyExit_aloof : Aloof K ttyExit := by
  have hclear : ∀ dev, Aloof K (modify fun s : FsState =>
      { s with
        fprocs := fun p =>
          if initProcNr < p ∧ (s.fprocs p).tty = dev then { s.fprocs p with tty := 0 }
          else s.fprocs p }) := by
    intro dev
    apply Respects.modify
    intro s
    refine ⟨unmoved_procs ?_ ?_ ?_, fun _ => rfl, fun _ => rfl, ?_⟩
    · intro p
      split
      · exact ⟨rfl, rfl, rfl, rfl, rfl, rfl⟩
      · exact .refl _
    · intro p
      split <;> rfl
    · intro p hp
      by_cases hdev : initProcNr < p ∧ (s.fprocs p).tty = dev
      · rw [if_pos hdev] at hp ⊢
        exact .inl ⟨hp, rfl⟩
      · rw [if_neg hdev] at hp ⊢
        exact .inl ⟨hp, rfl⟩
    · intro p
      dsimp only
      split <;> rfl
  unfold ttyExit
  infer_instance

instance doRevive_aloof : Aloof K (doRevive q) := by
  unfold doRevive
  infer_instance

end

/-! ## §7 `link.c` and `mount.c` -/

section

variable {rip rldir oldDir oldIp newDir : InodeId} {newIp : Option InodeId} {q : Request} {sp : SuperId}
  {dev numb : ℕ} {string oldString : Name} {oldName : Block} {odir : Bool}

instance linkTo_aloof : Aloof K (linkTo rip) := by
  unfold linkTo
  dsimp only
  infer_instance

instance doLink_aloof : Aloof K (doLink q) := by
  unfold doLink
  infer_instance

instance rmdirCode_aloof : Aloof K (rmdirCode rip string) := by
  unfold rmdirCode
  dsimp only
  infer_instance

instance emptyDir_aloof : Aloof K (emptyDir rip rldir) := by
  unfold emptyDir
  dsimp only
  infer_instance

instance removeEntry_aloof : Aloof K (removeEntry rldir rip string) := by
  unfold removeEntry
  infer_instance

instance doUnlink_aloof : Aloof K (doUnlink q) := by
  unfold doUnlink
  infer_instance

instance renameCode_aloof : Aloof K (renameCode oldDir oldIp newDir newIp oldName) := by
  unfold renameCode
  dsimp only
  cases newIp <;> infer_instance

instance renameEnter_aloof : Aloof K (renameEnter odir numb newDir newIp string) := by
  unfold renameEnter
  cases newIp <;> dsimp only <;> infer_instance

instance renameRemove_aloof : Aloof K (renameRemove odir oldDir oldIp newDir oldString) := by
  unfold renameRemove
  dsimp only
  infer_instance

instance renameDirs_aloof :
    Aloof K (renameDirs oldDir oldIp newDir newIp oldName oldString string) := by
  unfold renameDirs
  infer_instance

/-- Two names are fetched, and what the second one is called is looked up or not. -/
instance doRename_aloof : Aloof K (doRename q) := by
  unfold doRename
  apply Respects.andThen
  intro r
  split
  · infer_instance
  apply Respects.andThen
  intro d
  split
  · infer_instance
  apply Respects.andThen
  intro oldIp
  dsimp only
  split
  all_goals
    apply Respects.andThen
    intro r
    apply Respects.andThen
    intro g
    apply Respects.andThen
    intro fetched
    split
    all_goals
      apply Respects.andThen
      intro r
      apply Respects.andThen
      intro d
      split
      · infer_instance
      apply Respects.andThen
      intro newIp
      split <;> infer_instance

instance nameToDev_aloof : Aloof K nameToDev := by
  unfold nameToDev
  dsimp only
  infer_instance

instance dropSuper_aloof : Aloof K (dropSuper sp) := modSuper_aloof

instance mountRoot_aloof : Aloof K (mountRoot rip dev) := by
  unfold mountRoot
  dsimp only
  infer_instance

instance mountMaps_aloof {root : Option InodeId} : Aloof K (mountMaps rip root dev) := by
  unfold mountMaps
  apply Respects.andThen
  intro r
  split
  · infer_instance
  · cases root <;> infer_instance

instance mountOn_aloof : Aloof K (mountOn q sp dev rip) := by
  unfold mountOn
  dsimp only
  infer_instance

instance mountSuper_aloof : Aloof K (mountSuper q sp dev) := by
  unfold mountSuper
  infer_instance

instance doMount_aloof : Aloof K (doMount q) := by
  unfold doMount
  apply Respects.andThen
  intro g
  split
  · infer_instance
  apply Respects.andThen
  intro r
  split
  · infer_instance
  apply Respects.andThen
  intro dev
  split
  · infer_instance
  apply Respects.andThen
  intro s
  split
  · infer_instance
  · split <;> infer_instance

instance derefInode_aloof {p : Ptr InodeId} : Aloof K (derefInode p) := by
  cases p <;> unfold derefInode <;> infer_instance

instance putInodePtr_aloof {p : Ptr InodeId} : Aloof K (putInodePtr p) := by
  cases p <;> unfold putInodePtr <;> infer_instance

instance unmountSuper_aloof : Aloof K (unmountSuper sp) := by
  unfold unmountSuper
  infer_instance

instance doUmount_aloof : Aloof K (doUmount q) := by
  unfold doUmount
  apply Respects.andThen
  intro g
  split
  · infer_instance
  apply Respects.andThen
  intro r
  split
  · infer_instance
  apply Respects.andThen
  intro dev
  split
  · infer_instance
  apply Respects.andThen
  intro s
  split
  · infer_instance
  generalize firstId (fun sp => decide ((s.supers sp).dev = dev)) = sp
  cases sp <;> dsimp only <;> infer_instance

end

/-! ## §8 `stadir.c`, `time.c`, `protect.c` and `device.c` -/

section

variable {rip : InodeId} {q : Request}

instance change_aloof {old : Fproc → Option InodeId} {new : Option InodeId → Fproc → Fproc}
    [∀ d, Shy (new d)] : Aloof K (change q old new) := by
  unfold change
  infer_instance

instance doChroot_aloof : Aloof K (doChroot q) := by
  unfold doChroot
  infer_instance

instance statInode_aloof {f : Option FilpId} {addr : ℕ} : Aloof K (statInode rip f addr) := by
  unfold statInode
  dsimp only
  infer_instance

instance doStat_aloof : Aloof K (doStat q) := by
  unfold doStat
  infer_instance

instance doFstat_aloof : Aloof K (doFstat q) := by
  unfold doFstat
  infer_instance

instance doUtime_aloof : Aloof K (doUtime q) := by
  unfold doUtime
  dsimp only
  infer_instance

instance doTime_aloof : Aloof K doTime := by
  unfold doTime
  infer_instance

instance doStime_aloof : Aloof K doStime := by
  unfold doStime
  infer_instance

instance doChmod_aloof : Aloof K (doChmod q) := by
  unfold doChmod
  infer_instance

instance doChown_aloof : Aloof K (doChown q) := by
  unfold doChown
  infer_instance

instance doUmask_aloof : Aloof K (doUmask q) := by
  unfold doUmask
  infer_instance

instance doAccess_aloof : Aloof K (doAccess q) := by
  unfold doAccess
  infer_instance

instance doIoctl_aloof : Aloof K (doIoctl q) := by
  unfold doIoctl
  infer_instance

end

/-! ## §9 Opening and Closing -/

section

variable {q : Request} {f : FilpId} {k : ℕ}

instance claimFd_unmoved : Respects (Unmoved K) (claimFd f k) := by
  unfold claimFd
  dsimp only
  infer_instance

instance commonOpen_unmoved [Allows K xopen] {oflags omode : ℕ} :
    Respects (Unmoved K) (commonOpen oflags omode) := by
  unfold commonOpen
  dsimp only
  infer_instance

instance doCreat_unmoved [Allows K xopen] : Respects (Unmoved K) (doCreat q) := by
  unfold doCreat
  infer_instance

instance doOpen_unmoved [Allows K xopen] : Respects (Unmoved K) (doOpen q) := by
  unfold doOpen
  dsimp only
  infer_instance

/-- The caller has one descriptor less, but stays who it is. -/
instance doClose_unmoved {fd : ℤ} : Respects (Unmoved K) (doClose fd) := by
  unfold doClose
  apply Respects.andThen
  intro r
  split
  · infer_instance
  dsimp only
  apply Respects.andThen
  intro rip
  apply Respects.andThen
  intro i
  split
  · apply Respects.andThen
    intro _
    infer_instance
  · infer_instance

instance doDup_unmoved : Respects (Unmoved K) (doDup q) := by
  unfold doDup
  dsimp only
  generalize (if q.fd / 64 % 2 = 1 then q.fd - 64 else q.fd) = rfd
  infer_instance

instance doFcntl_unmoved : Respects (Unmoved K) (doFcntl q) := by
  unfold doFcntl
  dsimp only
  infer_instance

instance takeFd_unmoved : Respects (Unmoved K) (takeFd k f) := by
  unfold takeFd
  dsimp only
  infer_instance

instance dropFd_unmoved : Respects (Unmoved K) (dropFd k f) := by
  unfold dropFd
  dsimp only
  infer_instance

instance doPipe_unmoved : Respects (Unmoved K) doPipe := by
  unfold doPipe
  apply Respects.andThen
  intro slots
  split
  · infer_instance
  apply Respects.andThen
  intro _
  apply Respects.andThen
  intro slots
  split
  · infer_instance
  apply Respects.andThen
  intro _
  apply Respects.andThen
  intro x
  split
  · infer_instance
  apply Respects.andThen
  intro i
  apply Respects.andThen
  intro rip
  split <;> infer_instance

end

end LisaMinix.Fs.Server
