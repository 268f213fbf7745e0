-- The file system of the file server (fs/fs.c) over its block cache
-- (fs/bc.c). Addresses are relative to DISKMAP, so block b is at 4096 * b.
-- The functions of fs.c are programs of loads, stores and flushes. The
-- global pointers super and bitmap are set: this is the server after fs_init.
import Mathlib
import Jos.Mmu
import Jos.Lib.BlockStore

namespace jos.fs

open blockstore ia32
open blockstore.Prog (loadByte loadBytes loadWord storeBytes storeWord flushAt)

/-! ## Layout -/

def BLKSIZE : Nat := 4096
def BLKBITSIZE : Nat := 32768
def NDIRECT : Nat := 10
def NINDIRECT : Nat := 1024
def MAXFILESIZE : Nat := (NDIRECT + NINDIRECT) * BLKSIZE
def MAXNAMELEN : Nat := 128
def BLKFILES : Nat := 16
def DISKSIZE : Nat := 0xC0000000
def FS_MAGIC : Word := 0x4A0530AE#32
def FTYPE_REG : Word := 0#32
def FTYPE_DIR : Word := 1#32
def E_NO_DISK : Int := 9
def E_NOT_FOUND : Int := 11
def E_BAD_PATH : Int := 12
def E_FILE_EXISTS : Int := 13

/-- `super`, in block 1. -/
def super : Nat := 4096

/-- `bitmap`, from block 2 on. -/
def bitmap : Nat := 8192

/-- `&super->s_root`. -/
def s_root : Nat := super + 8

/-- The fields of the `struct File` at `f`. -/
def f_size (f : Nat) : Nat := f + 128
def f_type (f : Nat) : Nat := f + 132
def f_direct (f i : Nat) : Nat := f + 136 + 4 * i
def f_indirect (f : Nat) : Nat := f + 176

/-- The places where the file server stops. -/
inductive Panic
  | badMagic
  | tooLarge
  | bitmapNotReserved
  | badBlockNumber
  | freeZeroBlock
  | dirSize
  | badFlush
  | pageFault
  | nonExistentBlock
  | pageMap
  | readingFreeBlock
  | positiveResult
  deriving DecidableEq, Repr

abbrev Io := Prog Panic

/-! ## The super block and the bitmap -/

def s_nblocks : Io Word := loadWord (super + 4)

def check_super : Io Unit := do
  let magic ← loadWord super
  if magic ≠ FS_MAGIC then .panic .badMagic
  else
    let n ← s_nblocks
    if DISKSIZE / BLKSIZE < n.toNat then .panic .tooLarge else pure ()

def diskaddr (blockno : Word) : Io Nat := do
  if blockno = 0 then .panic .badBlockNumber
  else
    let n ← s_nblocks
    if n ≤ blockno then .panic .badBlockNumber else pure (BLKSIZE * blockno.toNat)

/-- `&bitmap[blockno / 32]`. -/
def bitmapWord (blockno : Word) : Nat := bitmap + 4 * (blockno.toNat / 32)

/-- `1 << (blockno % 32)`. -/
def bitmapBit (blockno : Word) : Word := 1#32 <<< (blockno.toNat % 32)

def block_is_free (blockno : Word) : Io Bool := do
  let n ← s_nblocks
  if n ≤ blockno then pure false
  else
    let w ← loadWord (bitmapWord blockno)
    pure (decide (w &&& bitmapBit blockno ≠ 0))

def free_block (blockno : Word) : Io Unit := do
  if blockno = 0 then .panic .freeZeroBlock
  else
    let w ← loadWord (bitmapWord blockno)
    storeWord (bitmapWord blockno) (w ||| bitmapBit blockno)

/-- `flush_block(va)` for an address of the disk map; what the cache does is
`flushPage`. -/
def flush_block (va : Nat) : Io Unit :=
  if DISKSIZE ≤ va then .panic .badFlush else flushAt va

/-- `for (; i < super->s_nblocks; i++)` of `alloc_block`, with the turns that
are left. -/
def alloc_block_from : Nat → Nat → Io Word
  | 0, _ => pure (BitVec.ofInt 32 (-E_NO_DISK))
  | left + 1, i => do
    let n ← s_nblocks
    if n.toNat ≤ i then pure (BitVec.ofInt 32 (-E_NO_DISK))
    else
      let free ← block_is_free (BitVec.ofNat 32 i)
      if free then
        let b := BitVec.ofNat 32 i
        let w ← loadWord (bitmapWord b)
        storeWord (bitmapWord b) (w &&& ~~~(bitmapBit b))
        let va ← diskaddr b
        flush_block va
        pure b
      else alloc_block_from left (i + 1)

/-- The result is an `int`: a block number, or `-E_NO_DISK`. -/
def alloc_block : Io Word := do
  let n ← s_nblocks
  alloc_block_from n.toNat 0

def check_bitmap_from : Nat → Nat → Io Unit
  | 0, _ => pure ()
  | left + 1, i => do
    let n ← s_nblocks
    if n.toNat ≤ i * BLKBITSIZE then pure ()
    else
      let free ← block_is_free (BitVec.ofNat 32 (2 + i))
      if free then .panic .bitmapNotReserved else check_bitmap_from left (i + 1)

def check_bitmap : Io Unit := do
  let n ← s_nblocks
  check_bitmap_from n.toNat 0
  let free₀ ← block_is_free 0
  if free₀ then .panic .bitmapNotReserved
  else
    let free₁ ← block_is_free 1
    if free₁ then .panic .bitmapNotReserved else pure ()

/-! ## Blocks of a file -/

/-- The address of the slot for block `filebno` of the file at `f`. -/
def file_block_walk (f filebno : Nat) (alloc : Bool) : Io (Except Int Nat) := do
  if NDIRECT + NINDIRECT ≤ filebno then pure (.error (-E_INVAL))
  else if filebno < NDIRECT then pure (.ok (f_direct f filebno))
  else
    let ind ← loadWord (f_indirect f)
    if ind ≠ 0 then
      let va ← diskaddr ind
      pure (.ok (va + 4 * (filebno - NDIRECT)))
    else if !alloc then pure (.error (-E_NOT_FOUND))
    else
      let r ← alloc_block
      if r.toInt < 0 then pure (.error r.toInt)
      else
        storeWord (f_indirect f) r
        let va ← diskaddr r
        storeBytes va (List.replicate BLKSIZE 0)
        let va ← diskaddr r
        flush_block va
        let va ← diskaddr r
        pure (.ok (va + 4 * (filebno - NDIRECT)))

/-- The address of block `filebno` of the file at `f`. The slot is a
`uint32_t`, so the test `(*pdiskbno = alloc_block()) < 0` never holds. -/
def file_get_block (f filebno : Nat) : Io (Except Int Nat) := do
  let p ← file_block_walk f filebno true
  match p with
  | .error r => pure (.error r)
  | .ok pdiskbno =>
    let b ← loadWord pdiskbno
    if b = 0 then
      let r ← alloc_block
      storeWord pdiskbno r
      let va ← diskaddr r
      pure (.ok va)
    else
      let va ← diskaddr b
      pure (.ok va)

/-! ## Directories -/

/-- `strcmp(p, name) == 0` for a string in memory. -/
def strcmpEq (p : Nat) : List Byte → Io Bool
  | [] => do
    let c ← loadByte p
    pure (decide (c = 0))
  | x :: xs => do
    let c ← loadByte p
    if c ≠ 0 ∧ c = x then strcmpEq (p + 1) xs else pure false

/-- The first of the entries from `f` on with a name, if any. -/
def findEntry (name : List Byte) : Nat → Nat → Io (Option Nat)
  | 0, _ => pure none
  | left + 1, f => do
    let eq ← strcmpEq f name
    if eq then pure (some f) else findEntry name left (f + 256)

/-- `for (; i < nblock; i++)` of `dir_lookup`. -/
def dir_lookup_from (dir : Nat) (name : List Byte) : Nat → Nat → Io (Except Int Nat)
  | 0, _ => pure (.error (-E_NOT_FOUND))
  | left + 1, i => do
    let blk ← file_get_block dir i
    match blk with
    | .error r => pure (.error r)
    | .ok blk =>
      let f ← findEntry name BLKFILES blk
      match f with
      | some f => pure (.ok f)
      | none => dir_lookup_from dir name left (i + 1)

/-- The quotient of a size and `BLKSIZE`, as C divides an `off_t`. -/
def perBlock (size : Word) : Nat := (size.sdiv 4096#32).toNat

def dir_lookup (dir : Nat) (name : List Byte) : Io (Except Int Nat) := do
  let size ← loadWord (f_size dir)
  if size.toNat % BLKSIZE ≠ 0 then .panic .dirSize
  else dir_lookup_from dir name (perBlock size) 0

/-- The first of the entries from `f` on without a name, if any. -/
def findBlank : Nat → Nat → Io (Option Nat)
  | 0, _ => pure none
  | left + 1, f => do
    let c ← loadByte f
    if c = 0 then pure (some f) else findBlank left (f + 256)

/-- `for (; i < nblock; i++)` of `dir_alloc_file`, and what follows it. -/
def dir_alloc_file_from (dir : Nat) : Nat → Nat → Io (Except Int Nat)
  | 0, i => do
    let size ← loadWord (f_size dir)
    storeWord (f_size dir) (size + 4096#32)
    file_get_block dir i
  | left + 1, i => do
    let blk ← file_get_block dir i
    match blk with
    | .error r => pure (.error r)
    | .ok blk =>
      let f ← findBlank BLKFILES blk
      match f with
      | some f => pure (.ok f)
      | none => dir_alloc_file_from dir left (i + 1)

def dir_alloc_file (dir : Nat) : Io (Except Int Nat) := do
  let size ← loadWord (f_size dir)
  if size.toNat % BLKSIZE ≠ 0 then .panic .dirSize
  else dir_alloc_file_from dir (perBlock size) 0

/-- What `walk_path` stores through its arguments, with its result. -/
structure Walk where
  r : Int
  pdir : Option Nat
  pf : Option Nat
  lastelem : List Byte

def skip_slash (p : List Byte) : List Byte := p.dropWhile (· = 47)

/-- The loop of `walk_path`, at the file `f` in the directory `dir`, with what
is left of the path. A turn goes past at least one character, so `left` need
not be more than there are. -/
def walk_path_from : Nat → Nat → Option Nat → List Byte → Io Walk
  | 0, f, dir, _ => pure ⟨0, dir, some f, []⟩
  | left + 1, f, dir, path =>
    if path = [] then pure ⟨0, dir, some f, []⟩
    else
      let name := path.takeWhile (· ≠ 47)
      if MAXNAMELEN ≤ name.length then pure ⟨-E_BAD_PATH, none, none, []⟩
      else do
        let path := skip_slash (path.dropWhile (· ≠ 47))
        let ty ← loadWord (f_type f)
        if ty ≠ FTYPE_DIR then pure ⟨-E_NOT_FOUND, none, none, []⟩
        else
          let g ← dir_lookup f name
          match g with
          | .ok g => walk_path_from left g (some f) path
          | .error r =>
            if r = -E_NOT_FOUND ∧ path = [] then pure ⟨r, some f, none, name⟩
            else pure ⟨r, none, none, []⟩

def walk_path (path : List Byte) : Io Walk :=
  walk_path_from (skip_slash path).length s_root none (skip_slash path)

/-! ## File operations -/

def file_open (path : List Byte) : Io (Except Int Nat) := do
  let w ← walk_path path
  match w.pf with
  | some f => pure (.ok f)
  | none => pure (.error w.r)

/-- `MIN(BLKSIZE - pos % BLKSIZE, end - pos)` of the loops of `file_read` and
`file_write`: the first argument is an `int`, the second a `size_t`. -/
def chunk (pos stop : Word) : Word :=
  let room := 4096#32 - pos.srem 4096#32
  if room ≤ stop - pos then room else stop - pos

/-- `blk + pos % BLKSIZE`. -/
def within (blk : Nat) (pos : Word) : Nat := (blk + (pos.srem 4096#32).toInt).toNat

/-- The loop of `file_read`, with the bytes that are in `buf`. A turn moves at
least one byte, so `left` need not be more than the bytes to be read. -/
def file_read_from (f : Nat) (count stop : Word) :
    Nat → Word → List Byte → Io (Int × List Byte)
  | 0, _, buf => pure (count.toInt, buf)
  | left + 1, pos, buf => do
    if stop ≤ pos then pure (count.toInt, buf)
    else
      let blk ← file_get_block f (perBlock pos)
      match blk with
      | .error r => pure (r, buf)
      | .ok blk =>
        let bn := chunk pos stop
        let bs ← loadBytes (within blk pos) bn.toNat
        file_read_from f count stop left (pos + bn) (buf ++ bs)

/-- The result, and the bytes that were moved to `buf`. -/
def file_read (f : Nat) (count offset : Word) : Io (Int × List Byte) := do
  let size ← loadWord (f_size f)
  if size.toInt ≤ offset.toInt then pure (0, [])
  else
    let count := if count ≤ size - offset then count else size - offset
    file_read_from f count (offset + count) count.toNat offset []

def file_free_block (f filebno : Nat) : Io (Except Int Unit) := do
  let p ← file_block_walk f filebno false
  match p with
  | .error r => pure (.error r)
  | .ok ptr =>
    let b ← loadWord ptr
    if b ≠ 0 then
      free_block b
      storeWord ptr 0
      pure (.ok ())
    else pure (.ok ())

/-- `for (; bno < old_nblocks; bno++)` of `file_truncate_blocks`. -/
def free_blocks_from (f : Nat) : Nat → Nat → Io Unit
  | 0, _ => pure ()
  | left + 1, bno => do
    let _ ← file_free_block f bno
    free_blocks_from f left (bno + 1)

/-- `(size + BLKSIZE - 1) / BLKSIZE`. -/
def nblocks (size : Word) : Nat := perBlock (size + 4095#32)

def file_truncate_blocks (f : Nat) (newsize : Word) : Io Unit := do
  let size ← loadWord (f_size f)
  free_blocks_from f (nblocks size - nblocks newsize) (nblocks newsize)
  if nblocks newsize ≤ NDIRECT then
    let ind ← loadWord (f_indirect f)
    if ind ≠ 0 then
      free_block ind
      storeWord (f_indirect f) 0
    else pure ()
  else pure ()

def file_set_size (f : Nat) (newsize : Word) : Io Int := do
  let size ← loadWord (f_size f)
  if newsize.toInt < size.toInt then file_truncate_blocks f newsize else pure ()
  storeWord (f_size f) newsize
  flush_block f
  pure 0

/-- The loop of `file_write`; `buf` is what is left of the buffer. -/
def file_write_from (f : Nat) (count stop : Word) : Nat → Word → List Byte → Io Int
  | 0, _, _ => pure count.toInt
  | left + 1, pos, buf => do
    if stop ≤ pos then pure count.toInt
    else
      let blk ← file_get_block f (perBlock pos)
      match blk with
      | .error r => pure r
      | .ok blk =>
        let bn := chunk pos stop
        storeBytes (within blk pos) (buf.take bn.toNat)
        file_write_from f count stop left (pos + bn) (buf.drop bn.toNat)

def file_write (f : Nat) (buf : List Byte) (count offset : Word) : Io Int := do
  let size ← loadWord (f_size f)
  if size < offset + count then
    let r ← file_set_size f (offset + count)
    if r < 0 then pure r
    else file_write_from f count (offset + count) count.toNat offset buf
  else file_write_from f count (offset + count) count.toNat offset buf

/-- `for (; i < (f->f_size + BLKSIZE - 1) / BLKSIZE; i++)` of `file_flush`. -/
def file_flush_from (f : Nat) : Nat → Nat → Io Unit
  | 0, _ => pure ()
  | left + 1, i => do
    let p ← file_block_walk f i false
    match p with
    | .error _ => file_flush_from f left (i + 1)
    | .ok pdiskbno =>
      let b ← loadWord pdiskbno
      if b = 0 then file_flush_from f left (i + 1)
      else
        let va ← diskaddr b
        flush_block va
        file_flush_from f left (i + 1)

def file_flush (f : Nat) : Io Unit := do
  let size ← loadWord (f_size f)
  file_flush_from f ((size + 4095#32).sdiv 4096#32).toInt.toNat 0
  flush_block f
  let ind ← loadWord (f_indirect f)
  if ind ≠ 0 then
    let va ← diskaddr ind
    flush_block va
  else pure ()

def file_create (path : List Byte) : Io (Except Int Nat) := do
  let w ← walk_path path
  if w.r = 0 then pure (.error (-E_FILE_EXISTS))
  else if w.r ≠ -E_NOT_FOUND then pure (.error w.r)
  else
    match w.pdir with
    | none => pure (.error w.r)
    | some dir =>
      let f ← dir_alloc_file dir
      match f with
      | .error r => pure (.error r)
      | .ok f =>
        storeBytes f (w.lastelem ++ [0])
        file_flush dir
        pure (.ok f)

/-- `for (; i < super->s_nblocks; i++)` of `fs_sync`. -/
def fs_sync_from : Nat → Nat → Io Unit
  | 0, _ => pure ()
  | left + 1, i => do
    let n ← s_nblocks
    if n.toNat ≤ i then pure ()
    else
      let va ← diskaddr (BitVec.ofNat 32 i)
      flush_block va
      fs_sync_from left (i + 1)

def fs_sync : Io Unit := do
  let n ← s_nblocks
  fs_sync_from n.toNat 1

/-! ## The block cache -/

/-- What `flush_block` does to the cache. `va_is_dirty` reads the page table
of the address; if there is none, the read itself is a page fault outside
the disk map. -/
def flushPage (va : Nat) (c : Cache) : Except Panic Cache :=
  let b := va / 4096
  if c.mapped b then .ok ((c.written b).cleaned b)
  else if c.tables (b / 1024) then .ok c
  else .error .pageFault

/-- The page-fault handler. It reads the super block and the bitmap through
the cache, so it may fault in turn; `room` is how many more of its frames
the exception stack holds. -/
def bc_pgfault : Nat → Nat → Cache → Except Panic Cache
  | 0, _, _ => .error .pageFault
  | room + 1, addr, c =>
    let nested : Pager Panic := ⟨bc_pgfault room, flushPage⟩
    if DISKSIZE ≤ addr then .error .pageFault
    else
      (nested.run s_nblocks c).bind fun r =>
        if r.1.toNat ≤ addr / 4096 then .error .nonExistentBlock
        else
          let c := r.2.loaded (addr / 4096)
          -- sys_page_map is given addr as it is, and refuses it if it is not aligned
          if addr % 4096 ≠ 0 then .error .pageMap
          else
            (nested.run (block_is_free (BitVec.ofNat 32 (addr / 4096)))
              (c.cleaned (addr / 4096))).bind fun r =>
                if r.1 then .error .readingFreeBlock else .ok r.2

/-- The block cache of the server: at most three frames of the handler are
needed, for a block, for its bitmap block and for the first bitmap block. -/
def bc : Pager Panic := ⟨bc_pgfault 4, flushPage⟩

end jos.fs
