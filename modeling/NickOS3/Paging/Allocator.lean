import NickOS3.Paging.Memory
import Mathlib.Data.Int.Notation

/-!
# The page allocator

`setupAvailablePages`, `get_next_free_physical_page`, `map_page`, `palloc_kern`,
`palloc_heap` and the three parts of `paging_init`, with `memset`, `memcpy` and
`initialiseHeap` as far as they store through the page tables. What is printed is left out, so
the results are about calls without `F_VERBOSE` and calls made while the console is mapped.
-/

namespace NickOS3.Paging

/-- `Kptov` -/
def kptov (phys : Nat) : Nat := u32 (phys + 0xC0000000)

/-- `kernel_pd`, that is `PAGE_DIRECTORY_BASE` -/
def kernelPd : Nat := 0xC0006000

def MAX_PHYS_PAGES : Nat := 4096

/-- `flags & F_KERN` -/
def fKern (flags : Nat) : Bool := flags.testBit 0

/-- `flags & F_ZERO` -/
def fZero (flags : Nat) : Bool := flags.testBit 1

/-- `flags & F_ASSERT` -/
def fAssert (flags : Nat) : Bool := flags.testBit 2

def F_KERN : Nat := 1

/-- The conversion to `int`. -/
def int32 (x : Int) : Int := x.bmod 4294967296

/-- The conversion of an `int` to a pointer or a `size_t`. -/
def ofInt (x : Int) : Nat := (x % 4294967296).toNat

/-! ## `memset` and `memcpy` -/

/-- `memset(str, c, n)` writes `n` words. -/
def memset (c : Nat) : Nat → Nat → PageM Unit
  | _, 0 => pure ()
  | ptr, n + 1 => do
      store ptr c
      memset c (u32 (ptr + 4)) n

/-- `memcpy(to, from, n)` copies `n` words. -/
def memcpy : Nat → Nat → Nat → PageM Unit
  | _, _, 0 => pure ()
  | dest, source, n + 1 => do
      let word ← load source
      store dest word
      memcpy (u32 (dest + 4)) (u32 (source + 4)) n

/-! ## `get_next_free_physical_page` -/

/-- The first entry of the table that is `M_FREE`. -/
def firstFree (entries : Nat → PhysPage) : Option Nat :=
  (List.range MAX_PHYS_PAGES).find? fun i => (entries i).type = .free

/-- Entry `i` becomes `M_ALLOCATED` and its address is returned. -/
def PagingState.take (s : PagingState) (i : Nat) : PagingState :=
  { s with
    physicalPageEntries := Function.update s.physicalPageEntries i
      { s.physicalPageEntries i with type := .allocated }
    returned := (s.physicalPageEntries i).physAddr :: s.returned }

def getNextFreePhysicalPage : PageM Nat := fun s =>
  match firstFree s.physicalPageEntries with
  | some i => .ok ((s.physicalPageEntries i).physAddr, s.take i)
  | none => .ok (NO_ADDR, s)

/-! ## `map_page` -/

/-- `&kernel_pd[pdIdx]` -/
def pdeAddr (pdIdx : Nat) : Nat := u32 (kernelPd + 4 * pdIdx)

/-- `&pt[ptIdx]` -/
def pteAddr (pt ptIdx : Nat) : Nat := u32 (pt + 4 * ptIdx)

/-- `pd_no` -/
def pdNo (vaddr : Nat) : Nat := vaddr / 4194304

/-- `pt_no` -/
def ptNo (vaddr : Nat) : Nat := vaddr / 4096 % 1024

/-- The assignments to the fields of `kernel_pd[pdIdx]`. -/
def setPde (pdIdx ptAddr : Nat) : PageM Unit := do
  modify (pdeAddr pdIdx) (setBaseAddr (ptAddr / 4096))
  modify (pdeAddr pdIdx) setPresent
  modify (pdeAddr pdIdx) setReadWrite

/-- The assignments to the fields of `pt[ptIdx]`. -/
def setPte (pt ptIdx paddr flags : Nat) : PageM Unit := do
  modify (pteAddr pt ptIdx) (setBaseAddr (paddr / 4096))
  modify (pteAddr pt ptIdx) setPresent
  modify (pteAddr pt ptIdx) setReadWrite
  if fKern flags then modify (pteAddr pt ptIdx) setUserSupervisor else pure ()

def recordInstalled (pdIdx : Nat) : PageM Unit :=
  assign fun s => { s with installed := pdIdx :: s.installed }

/-- `map_page`, less what it prints, with a bound on its recursion. -/
def mapPageWithin : Nat → Nat → Nat → Nat → PageM Unit
  | 0, _, _, _ => throw .diverges
  | fuel + 1, paddr, vaddr, flags =>
      if vaddr % PGSIZE ≠ 0 ∨ paddr % 4096 ≠ 0 then throw .panic
      else do
        let pde ← load (pdeAddr (pdNo vaddr))
        (if present pde then pure ()
          else do
            let ptAddr ← getNextFreePhysicalPage
            mapPageWithin fuel ptAddr (kptov ptAddr) F_KERN
            setPde (pdNo vaddr) ptAddr
            recordInstalled (pdNo vaddr))
        let pde ← load (pdeAddr (pdNo vaddr))
        setPte (kptov (baseAddr pde * 4096)) (ptNo vaddr) paddr flags

/-- Each recursive call has taken an entry of the table; without one it panics. -/
def mapPage (paddr vaddr flags : Nat) : PageM Unit :=
  mapPageWithin (MAX_PHYS_PAGES + 2) paddr vaddr flags

/-! ## `palloc_kern` and `palloc_heap` -/

/-- `if (flags & F_ZERO) memset(return_addr, 0, num_pages * PGSIZE)` -/
def zeroPages (flags returnAddr : Nat) (numPages : Int) : PageM Unit :=
  if fZero flags then memset 0 returnAddr (ofInt (numPages * PGSIZE)) else pure ()

/-- What is done when there is no frame: `PANIC`, or the call returns `NO_ADDR`. -/
def noFrame (flags : Nat) : PageM (Option Nat) :=
  if fAssert flags then throw .panic else pure none

/-- The loop of `palloc_kern`, the remaining rounds first; `none` when it returns `NO_ADDR`. -/
def pallocKernLoop (flags : Nat) : Nat → Nat → Nat → PageM (Option Nat)
  | 0, _, returnAddr => pure (some returnAddr)
  | n + 1, i, returnAddr => do
      let paddr ← getNextFreePhysicalPage
      if paddr = NO_ADDR then noFrame flags
      else do
        mapPage paddr (kptov paddr) flags
        pallocKernLoop flags n (i + 1) (if i = 0 then kptov paddr else returnAddr)

def pallocKern (numPages : Int) (flags : Nat) : PageM Nat := do
  match ← pallocKernLoop flags numPages.toNat 0 0 with
  | none => pure NO_ADDR
  | some returnAddr => do
      zeroPages flags returnAddr numPages
      pure returnAddr

/-- `pool->next_free_page_index` -/
def PagingState.index (s : PagingState) (pool : Nat) : Int := (s.pools pool).nextFreePageIndex

/-- Change the pool at an address. -/
def PagingState.setPool (s : PagingState) (pool : Nat) (p : Pool) : PagingState :=
  { s with pools := Function.update s.pools pool p }

/-- `&(kernel_pool->virtual_pages[index])` is read or written. -/
def PagingState.access (s : PagingState) (pool : Nat) (index : Int) : PagingState :=
  { s with accessed := (pool, index) :: s.accessed }

/-- Change an entry of `virtual_pages`. -/
def Pool.setEntry (p : Pool) (index : Int) (f : VirtPage → VirtPage) : Pool :=
  { p with virtualPages := Function.update p.virtualPages index (f (p.virtualPages index)) }

/-- `virt_page next_free_vpage = kernel_pool->virtual_pages[kernel_pool->next_free_page_index]`,
a local copy in which every field is then assigned to. -/
def copyVirtPage : PageM Unit :=
  assign fun s => s.access s.kernelPool (s.index s.kernelPool)

/-- `(mem_pool->next_free_page_index)*4096` -/
def nextVaddr (memPool : Nat) : PageM Nat := fun s =>
  .ok (ofInt (s.index memPool * 4096), s)

/-- The end of a round of `palloc_heap`: the local copy is filled in, the entry before it is
made to point to it, and the index of `kernel_pool` advances. The copy is not written back. -/
def PagingState.linkVirtPage (s : PagingState) (memPool : Nat) : PagingState :=
  let kernelPool := s.kernelPool
  let previous := s.index kernelPool - 1
  let pool := (s.pools kernelPool).setEntry previous fun page => { page with nextPage := .local }
  let pool := { pool with nextFreePageIndex := pool.nextFreePageIndex + 1 }
  let s := (s.access kernelPool previous).setPool kernelPool pool
  { s with advanced := (memPool, kernelPool) :: s.advanced }

/-- The loop of `palloc_heap`. -/
def pallocHeapLoop (memPool flags : Nat) : Nat → Nat → Nat → PageM (Option Nat)
  | 0, _, returnAddr => pure (some returnAddr)
  | n + 1, i, returnAddr => do
      copyVirtPage
      let paddr ← getNextFreePhysicalPage
      if paddr = NO_ADDR then noFrame flags
      else do
        let vaddr ← nextVaddr memPool
        mapPage paddr vaddr flags
        assign fun s => s.linkVirtPage memPool
        pallocHeapLoop memPool flags n (i + 1) (if i = 0 then vaddr else returnAddr)

def pallocHeap (numPages : Int) (memPool flags : Nat) : PageM Nat := do
  match ← pallocHeapLoop memPool flags numPages.toNat 0 0 with
  | none => pure NO_ADDR
  | some returnAddr => do
      zeroPages flags returnAddr numPages
      pure returnAddr

/-! ## `paging_init` -/

/-- The loop of `clear_identity_pages`, over the entries from `i` on. -/
def clearIdentityLoop : Nat → Nat → PageM Unit
  | _, 0 => pure ()
  | i, n + 1 => do
      modify (pdeAddr i) clearPresent
      clearIdentityLoop (i + 1) n

def clearIdentityPages : PageM Unit := clearIdentityLoop 0 6

/-- `sizeof(pool)` -/
def poolSize : Nat := 8204

/-- The pages `init_pool` needs: the size rounded up. -/
def poolPages : Nat :=
  (if poolSize % PGSIZE ≠ 0 then poolSize - poolSize % PGSIZE + PGSIZE else poolSize) / PGSIZE

/-- The loop of `init_pool`. -/
def initPoolLoop (flags : Nat) : Nat → Nat → Nat → PageM Nat
  | 0, _, poolAddr => pure poolAddr
  | n + 1, i, poolAddr => do
      let paddr ← getNextFreePhysicalPage
      mapPage paddr (kptov paddr) flags
      initPoolLoop flags n (i + 1) (if i = 0 then kptov paddr else poolAddr)

/-- `init_pool` -/
def initPool (flags : Nat) : PageM Nat := initPoolLoop flags poolPages 0 0

/-- `kernel_pool = init_pool(F_KERN)` -/
def initKernelPool : PageM Unit := do
  let pool ← initPool F_KERN
  assign fun s => { s with kernelPool := pool }

/-- What `initialiseHeap` stores. -/
def initialiseHeap (baseAddr length : Nat) : PageM Unit := do
  store baseAddr (u32 (length + 4294967296 - 24))
  store (u32 (baseAddr + 12)) 0
  store (u32 (baseAddr + 4)) 0
  store (u32 (baseAddr + 16)) 0
  store (u32 (baseAddr + 8)) 0
  store (u32 (baseAddr + 20)) 1

/-- Change the pool at an address. -/
def modifyPool (pool : Nat) (f : Pool → Pool) : PageM Unit :=
  assign fun s => s.setPool pool (f (s.pools pool))

/-- `pl->virtual_pages[0]` is changed. -/
def modifyFirstPage (pl : Nat) (f : VirtPage → VirtPage) : PageM Unit :=
  assign fun s => (s.access pl 0).setPool pl ((s.pools pl).setEntry 0 f)

/-- `if (pl->next_free_page_index) PANIC` -/
def checkFresh (pl : Nat) : PageM Unit := fun s =>
  if s.index pl ≠ 0 then .error .panic else .ok ((), s)

def initHeapPage (pl flags : Nat) : PageM Unit := do
  checkFresh pl
  let paddr ← getNextFreePhysicalPage
  modifyPool pl fun p => { p with nextFreePageIndex := 1 }
  modifyFirstPage pl fun page => { page with type := .allocated }
  mapPage paddr 0 F_KERN
  modifyFirstPage pl fun page =>
    { page with baseVaddr := 0, nextPage := .null, previousPage := .null }
  modifyPool pl fun p => { p with ring := if fKern flags then 0 else 3 }
  initialiseHeap 0 PGSIZE

/-- `init_heap_page(kernel_pool, F_KERN)` -/
def initKernelHeap : PageM Unit := fun s => initHeapPage s.kernelPool F_KERN s

def pagingInit : PageM Unit := do
  clearIdentityPages
  initKernelPool
  initKernelHeap

/-! ## `setupAvailablePages` -/

/-- `MemoryMapEntry`; base and length have 64 bits. -/
structure MemoryMapEntry where
  base : Nat
  length : Nat
  deriving DecidableEq

/-- `void* baseAddr = (void*) usableMemoryRegions[i]->Base` -/
def MemoryMapEntry.baseAddr (r : MemoryMapEntry) : Nat := u32 r.base

/-- `int maxPages = usableMemoryRegions[i]->Length/4096` -/
def MemoryMapEntry.maxPages (r : MemoryMapEntry) : Int := int32 (r.length / 4096 : Nat)

/-- `pagecount`, cut off at the size of the table. -/
def countPages (regions : List MemoryMapEntry) : Int :=
  let pagecount := regions.foldl (fun n r => int32 (n + (r.length / 4096 : Nat))) 0
  if pagecount > MAX_PHYS_PAGES then MAX_PHYS_PAGES else pagecount

/-- The loop over the pages of a region, the remaining rounds first. -/
def fillRegion (baseAddr : Nat) : Nat → Nat → Nat → (Nat → PhysPage) → Nat × (Nat → PhysPage)
  | 0, _, pg, entries => (pg, entries)
  | n + 1, x, pg, entries =>
      if pg < MAX_PHYS_PAGES then
        fillRegion baseAddr n (x + 1) (pg + 1)
          (Function.update entries pg ⟨.free, u32 (baseAddr + x * PGSIZE)⟩)
      else (pg, entries)

/-- The body of the loop over the regions: the entries of one region. -/
def fillFrom (filled : Nat × (Nat → PhysPage)) (r : MemoryMapEntry) : Nat × (Nat → PhysPage) :=
  fillRegion r.baseAddr r.maxPages.toNat 0 filled.1 filled.2

/-- The loop over the regions. -/
def fillTable (regions : List MemoryMapEntry) (pg : Nat) (entries : Nat → PhysPage) :
    Nat → PhysPage :=
  (regions.foldl fillFrom (pg, entries)).2

/-- `physical_page_entries[i].type = M_RESERVED`, and frame `i` is mapped. -/
def reservePage (i : Nat) : PageM Unit := do
  assign fun s => { s with
    physicalPageEntries := Function.update s.physicalPageEntries i
      { s.physicalPageEntries i with type := .reserved } }
  mapPage (i * 4096) (kptov (i * 4096)) F_KERN

/-- The loop that reserves the kernel pages, from `i` on. -/
def reserveLoop : Nat → Nat → PageM Unit
  | _, 0 => pure ()
  | i, n + 1 => do
      reservePage i
      reserveLoop (i + 1) n

/-- `base_pd = palloc_kern(1, F_ZERO | F_ASSERT)`, and the copy of the directory. -/
def setupBasePd : PageM Unit := do
  let basePd ← pallocKern 1 6
  assign fun s => { s with basePd := basePd }
  memcpy basePd kernelPd PGSIZE

def setupAvailablePages (regions : List MemoryMapEntry) : PageM Unit := do
  assign fun s => { s with
    pagecount := countPages regions
    physicalPageEntries := fillTable regions 0 s.physicalPageEntries }
  reserveLoop 0 32
  reservePage (0xb8000 / PGSIZE)
  setupBasePd

end NickOS3.Paging
