import YggKernel.Dev.Initrd

namespace YggKernel.Dev

open Lib.ByteMemory Strings

def vfsDtDir : Nat := 4
def vfsDtReg : Nat := 8

def vfsFlgDir : BitVec 32 := 1#32 <<< 21

def slash : BitVec 8 := 0x2F

structure VfsDir where
  flags : BitVec 32
  path : List (BitVec 8)
  devPriv : Nat

structure VfsDirent where
  name : List (BitVec 8)
  type : Nat
  deriving DecidableEq

def cstring (m : Mem) : Nat → Nat → List (BitVec 8)
  | 0, _ => []
  | n + 1, a => if m a = 0 then [] else m a :: cstring m n (a + 1)

/-- No string is longer than memory. -/
def cstringAt (m : Mem) (a : Nat) : List (BitVec 8) := cstring m 4294967296 a

def countSlashes (p : List (BitVec 8)) : Nat := p.count slash

def innerSlashes : List (BitVec 8) → Nat
  | [] => 0
  | c :: p => (if c = slash ∧ p ≠ [] then 1 else 0) + innerSlashes p

def initramfsCheckPathMatch (m : Mem) (p0 : List (BitVec 8)) (p1 : Nat) : Int :=
  if strncmpAt m p1 p0 p0.length ≠ 0 then -1
  else if (if p0 ≠ [] then 1 else 0) + countSlashes p0 = innerSlashes (cstringAt m p1) then 0
  else -1

def nextHeader (m : Mem) (isUstar : Bool) (hdr : Nat) : Nat :=
  if tarType m hdr isUstar = tarFile then
    let entsiz := tarOct2u32 m (hdr + offSize) 12
    u32 (hdr + tarSize * (1 + (mmAlignUp entsiz 512 / 512).toNat))
  else u32 (hdr + tarSize)

/-- The loop of `initramfs_readdir`; none when it finds the end of the archive. -/
def readdirLoop (m : Mem) (path : List (BitVec 8)) (isUstar : Bool) : Nat → Nat → Except Fault (Option Nat)
  | 0, _ => .error .hang
  | n + 1, hdr =>
    if initramfsCheckPathMatch m path (hdr + offName) ≠ 0 then
      if m (nextHeader m isUstar hdr + offName) = 0 then .ok none
      else readdirLoop m path isUstar n (nextHeader m isUstar hdr)
    else .ok (some hdr)

/-- What `initramfs_readdir` does with the header that matches: the result, the directory afterwards,
and the entry that was filled in. -/
def fillEntry (m : Mem) (isUstar : Bool) (dir : VfsDir) (hdr : Nat) : Int × VfsDir × Option VfsDirent :=
  let name := cstringAt m (hdr + offName + if dir.path ≠ [] then dir.path.length + 1 else 0)
  let next := nextHeader m isUstar hdr
  if tarType m hdr isUstar = tarFile then
    if m (next + offName) = 0 then
      let next := u32 (next + tarSize)
      if m (next + offName) = 0 then (0, { dir with devPriv := mmNaddr }, some ⟨name, vfsDtReg⟩)
      else (0, { dir with devPriv := next }, some ⟨name, vfsDtReg⟩)
    else (0, { dir with devPriv := next }, some ⟨name, vfsDtReg⟩)
  else (0, { dir with devPriv := next }, some ⟨name, vfsDtDir⟩)

def initramfsReaddir (m : Mem) (dir : VfsDir) : Except Fault (Int × VfsDir × Option VfsDirent) := do
  if dir.devPriv = mmNaddr then return (-1, dir, none)
  let isUstar := tarIsUstar m dir.devPriv
  match ← readdirLoop m dir.path isUstar allRounds dir.devPriv with
  | none => return (-1, { dir with devPriv := mmNaddr }, none)
  | some hdr => return fillEntry m isUstar dir hdr

def initramfsOpendir (devInitrd base srcdev : Nat) (dir : VfsDir) : Except Fault VfsDir :=
  if devInitrd = srcdev then .ok { dir with devPriv := base }
  else .error (assertionFailed "dev_initrd == mnt->srcdev")

/-- What `vfs_opendir` does with the mount and the relative path that it looked up, and with the
block that it allocated. -/
def vfsOpendir (devInitrd base srcdev : Nat) (rel : List (BitVec 8)) (block : VfsDir) : Except Fault VfsDir :=
  initramfsOpendir devInitrd base srcdev { block with path := rel, flags := block.flags ||| vfsFlgDir }

def vfsReaddir (m : Mem) (dir : VfsDir) : Except Fault (Int × VfsDir × Option VfsDirent) :=
  if dir.flags &&& vfsFlgDir ≠ 0 then initramfsReaddir m dir
  else .error (assertionFailed "dir->flags & VFS_FLG_DIR")

/-- The entries that the calls yield until one fails. -/
inductive Lists (m : Mem) : VfsDir → List VfsDirent → Prop
  | ended {dir dir' : VfsDir} {ent : Option VfsDirent} {r : Int} : r ≠ 0 → vfsReaddir m dir = .ok (r, dir', ent) →
      Lists m dir []
  | entry {dir dir' : VfsDir} {ent : VfsDirent} {rest : List VfsDirent} :
      vfsReaddir m dir = .ok (0, dir', some ent) → Lists m dir' rest → Lists m dir (ent :: rest)

end YggKernel.Dev
