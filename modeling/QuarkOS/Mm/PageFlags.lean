import QuarkOS.Mm.Kmalloc

/-!
# The flags of a page over its lives

The word `flag` of a page belongs to the page allocator, to the slab allocator and to the page cache.
`__free_page` sets the bits of the allocator and clears none, so a page keeps the flags of its last owner
until somebody else gets it. A run here has every user of pages: `kmalloc` and `kfree`, the page cache,
and clients of `__alloc_page` that do with the flags of their pages what they like. As long as nobody
drops the last reference of a block whose pages carry flags, the next owner finds none.

Of the page cache this models what `new_buf`, `page_read`, `page_read_sync`, `page_sync` and
`mark_page_dirty` do to the page. Each takes and releases the lock of the page.
-/

namespace QuarkOS

open CList Dyadic BuddyAllocator FreeList Function

namespace Vm

def newBuf (s : Vm) : Except Fault (Nat × Vm) := do
  let (buf, s) ← s._allocPage pageSize
  let s ← s.kvmMap buf (vmPres ||| vmKrw)
  .ok (buf, s.modifyPage buf fun q => { q with flag := q.flag ||| pgCache })

/-- A dirty page goes to the drive, any other is read: `words` is what the drive delivers. -/
def transfer (s : Vm) (buf : Nat) (words : Nat → BitVec 32) : Except Fault Vm :=
  if (s.alloc.pages buf).flag &&& pgDirty ≠ 0 then .ok s
  else do
    let frame ← s.frameAt (s.alloc.pages buf).data
    .ok (s.setFrame frame words)

/-- The transfer and the interrupt at its end. -/
def pageRw (s : Vm) (buf : Nat) (words : Nat → BitVec 32) : Except Fault Vm := do
  let s ← s.transfer buf words
  .ok (s.modifyPage buf fun q => { q with flag := (q.flag &&& ~~~pgDirty) ||| pgValid })

/-- Also returns whether the page was read. -/
def pageRead (s : Vm) (buf : Nat) (words : Nat → BitVec 32) : Except Fault (Bool × Vm) := do
  if (s.alloc.pages buf).flag &&& pgValid ≠ 0 then .ok (false, s)
  else do
    let s ← s.pageRw buf words
    .ok (true, s)

def pageReadSync (s : Vm) (buf : Nat) (words : Nat → BitVec 32) : Except Fault Vm :=
  s.pageRw buf words

def pageSync (s : Vm) (buf : Nat) (words : Nat → BitVec 32) : Except Fault Vm :=
  (s.modifyPage buf fun q => { q with flag := q.flag ||| (pgDirty ||| pgValid) }).pageRw buf words

def markPageDirty (s : Vm) (buf : Nat) : Except Fault Vm := do
  assertk ((s.alloc.pages buf).flag &&& pgCache ≠ 0)
  if (s.alloc.pages buf).flag &&& pgDirty = 0 then
    .ok (s.modifyPage buf fun q => { q with flag := q.flag ||| (pgDirty ||| pgValid) })
  else .ok s

variable {s s' : Vm} {A A' B B' : Set Block} {N N' : PageNode → List PageNode} {P : Set Nat} {b : Block}
  {p n : Nat} {m : BitVec 16} {G G' : Nat → Option Slab} {live : List (Nat × Nat)}
  {bufs : Nat → Option Bool} {raw : Set Block}

/-- None of the pages of the block carries a flag of a client. -/
def Bare (s : Vm) (b : Block) : Prop := ∀ q ∈ b, (s.alloc.pages q).flag &&& clientFlags = 0#16

/-- What the users of pages do. `live` are the allocations of `kmalloc`; `bufs` the pages of the page
cache, each with whether it was read or written since `new_buf`; and `raw` the blocks that clients took
from `__alloc_page`. The last reference of a block is dropped only when the block is bare, so that
`recycle` and `slab_recycle` do not come to a `__free_page`: `PG_CACHE` and `PG_SLAB` are never cleared. -/
inductive FlagStep (s : Vm) (live : List (Nat × Nat)) (bufs : Nat → Option Bool) (raw : Set Block) :
    Vm → List (Nat × Nat) → (Nat → Option Bool) → Set Block → Prop
  | kmalloc {s' : Vm} {n addr : Nat} (hpos : 1 ≤ n) (hle : n ≤ 4 * 0x100000)
      (hok : s.kmalloc n = .ok (addr, s')) : FlagStep s live bufs raw s' ((addr, n) :: live) bufs raw
  | kfree {s' : Vm} {n addr : Nat} (hlive : (addr, n) ∈ live) (hok : s.kfree addr = .ok s') :
      FlagStep s live bufs raw s' (live.erase (addr, n)) bufs raw
  | newBuf {s' : Vm} {p : Nat} (hok : s.newBuf = .ok (p, s')) :
      FlagStep s live bufs raw s' live (update bufs p (some false)) raw
  | pageRead {s' : Vm} {p : Nat} {v asked : Bool} {words : Nat → BitVec 32} (hbuf : bufs p = some v)
      (hok : s.pageRead p words = .ok (asked, s')) :
      FlagStep s live bufs raw s' live (update bufs p (some true)) raw
  | pageReadSync {s' : Vm} {p : Nat} {v : Bool} {words : Nat → BitVec 32} (hbuf : bufs p = some v)
      (hok : s.pageReadSync p words = .ok s') :
      FlagStep s live bufs raw s' live (update bufs p (some true)) raw
  | pageSync {s' : Vm} {p : Nat} {v : Bool} {words : Nat → BitVec 32} (hbuf : bufs p = some v)
      (hok : s.pageSync p words = .ok s') :
      FlagStep s live bufs raw s' live (update bufs p (some true)) raw
  | markPageDirty {s' : Vm} {p : Nat} {v : Bool} (hbuf : bufs p = some v)
      (hok : s.markPageDirty p = .ok s') :
      FlagStep s live bufs raw s' live (update bufs p (some true)) raw
  | allocPage {s' : Vm} {n p : Nat} (hmin : 4096 ≤ fixSize n) (hmax : fixSize n ≤ 4 * 0x100000)
      (hok : s._allocPage n = .ok (p, s')) :
      FlagStep s live bufs raw s' live bufs (insert ⟨p, Nat.log2 (fixSize n >>> 12)⟩ raw)
  | setFlags {b : Block} {q : Nat} {flag : BitVec 16} (hb : b ∈ raw) (hq : q ∈ b)
      (hflag : flag &&& ~~~clientFlags = (s.alloc.pages q).flag &&& ~~~clientFlags) :
      FlagStep s live bufs raw (s.modifyPage q fun page => { page with flag }) live bufs raw
  | ref {b : Block} (hb : b ∈ raw) (hlt : (s.alloc.pages b.start).refCnt + 1 < 2 ^ 16) :
      FlagStep s live bufs raw
        (s.modifyPage b.start fun page => { page with refCnt := (page.refCnt + 1) % 2 ^ 16 }) live bufs raw
  | unref {s' : Vm} {b : Block} (hb : b ∈ raw) (href : 1 < (s.alloc.pages b.start).refCnt)
      (hok : s._freePage b.start = .ok s') : FlagStep s live bufs raw s' live bufs raw
  | freePage {s' : Vm} {b : Block} (hb : b ∈ raw) (href : (s.alloc.pages b.start).refCnt = 1)
      (hbare : Bare s b) (hok : s._freePage b.start = .ok s') :
      FlagStep s live bufs raw s' live bufs (raw \ {b})

inductive FlagRun (s0 : Vm) : Vm → List (Nat × Nat) → (Nat → Option Bool) → Set Block → Prop
  | start : FlagRun s0 s0 [] (fun _ => none) ∅
  | step {s s' : Vm} {live live' : List (Nat × Nat)} {bufs bufs' : Nat → Option Bool} {raw raw' : Set Block}
      (hrun : FlagRun s0 s live bufs raw) (hstep : FlagStep s live bufs raw s' live' bufs' raw') :
      FlagRun s0 s' live' bufs' raw'

structure BufOk (s : Vm) (A : Set Block) (p : Nat) (v : Bool) : Prop where
  mem : ⟨p, 0⟩ ∈ A
  mapped : KMapped s p
  cache : (s.alloc.pages p).flag &&& pgCache ≠ 0
  slab : isSlab (s.alloc.pages p) = false
  valid : v = false → (s.alloc.pages p).flag &&& pgValid = 0

structure RawOk (s : Vm) (A : Set Block) (b : Block) : Prop where
  mem : b ∈ A
  unmapped : ∀ q ∈ b, s.kPageTables (s.frame q) &&& vmPres = 0

structure FlagInv (s : Vm) (live : List (Nat × Nat)) (bufs : Nat → Option Bool) (raw A : Set Block)
    (N : PageNode → List PageNode) (G : Nat → Option Slab) : Prop where
  kmalloc : KmallocInv clientFlags s live A N G
  buf : ∀ p v, bufs p = some v → BufOk s A p v
  raw : ∀ b ∈ raw, RawOk s A b

theorem clientMask_all : ClientMask clientFlags := ⟨by decide, by decide⟩

theorem BufOk.grows {v : Bool} (h : BufOk s A p v) (hg : Grows s s' B B' P) (hB : ⟨p, 0⟩ ∈ B)
    (hA' : ⟨p, 0⟩ ∈ A') : BufOk s' A' p v := by
  have hpage := hg.page _ hB p (Block.start_mem _)
  refine ⟨hA', hg.kMapped h.mapped hB (Block.start_mem _), ?_, ?_, ?_⟩
  · rw [hpage]
    exact h.cache
  · rw [hpage]
    exact h.slab
  · rw [hpage]
    exact h.valid

theorem RawOk.grows (h : RawOk s A b) (hg : Grows s s' B B' P) (hB : b ∈ B) (hA' : b ∈ A') :
    RawOk s' A' b := by
  refine ⟨hA', fun q hq => ?_⟩
  rw [hg.frame, hg.entry b hB q hq]
  exact h.unmapped q hq

/-! The users of pages tell their blocks apart: a block of `kmalloc` and a slab are mapped, a block of a
client is not, and a page of the page cache carries `PG_CACHE`. -/

theorem presentFrame_ne {e : Pte} {f : Nat} (h : presentFrame e = .ok f) : e &&& vmPres ≠ 0 :=
  (presentFrame_ok h).1

variable {c : Block} {q : Nat} {words : Nat → BitVec 32}

theorem RawOk.not_block (h : RawOk s A b) (hc : BlockOk m s A c) : b ≠ c := by
  rintro rfl
  exact presentFrame_ne (hc.entry _ b.start_mem) (h.unmapped _ b.start_mem)

theorem RawOk.notMem_block (h : RawOk s A b) (hk : Kernel s A N) (hq : q ∈ b)
    (hc : BlockOk m s A c) : q ∉ c := fun hqc => h.not_block hc (hk.owns.eq_of_mem h.mem hc.mem hq hqc)

theorem RawOk.not_slab {size : PageNode → Nat} (h : RawOk s A b) (hs : Slabs s A N size G)
    (hq : q ∈ b) : G q = none := by
  cases hg : G q with
  | none => rfl
  | some g => exact absurd (h.unmapped q hq) (presentFrame_ne (hs.ok q g hg).mapped.entry)

theorem BufOk.flag_ne {v : Bool} (h : BufOk s A p v) : (s.alloc.pages p).flag &&& clientFlags ≠ 0#16 := by
  intro hzero
  have hcache : clientFlags &&& pgCache = pgCache := by decide
  apply h.cache
  rw [← hcache, ← BitVec.and_assoc, hzero]
  exact BitVec.zero_and

theorem BufOk.not_block {v : Bool} (h : BufOk s A p v) (hc : BlockOk clientFlags s A c) :
    p ∉ c := fun hp => h.flag_ne (hc.flag p hp)

theorem BufOk.not_slab {v : Bool} {size : PageNode → Nat} (h : BufOk s A p v) (hs : Slabs s A N size G) :
    G p = none := by
  cases hg : G p with
  | none => rfl
  | some g =>
    have hflag := (hs.ok p g hg).flag
    rw [h.slab] at hflag
    cases hflag

theorem RawOk.not_buf {v : Bool} (h : RawOk s A b) (hp : BufOk s A p v) : p ∉ b := by
  intro hmem
  exact presentFrame_ne hp.mapped.entry (h.unmapped p hmem)

theorem or_and_disjoint {x v w : BitVec 16} (hv : v &&& w = 0#16) : (x ||| v) &&& w = x &&& w := by
  rw [BitVec.and_comm, BitVec.and_or_distrib_left, BitVec.and_comm w v, hv, BitVec.or_zero, BitVec.and_comm]

theorem and_of_mask {x y k w : BitVec 16} (hw : k &&& w = w) (h : x &&& k = y &&& k) : x &&& w = y &&& w := by
  rw [← hw, ← BitVec.and_assoc, ← BitVec.and_assoc, h]

/-- The flags that a user of the page cache leaves alone. -/
def bufMask : BitVec 16 := pgHead ||| pgCache ||| pgSlab

section

variable (h : FlagInv s live bufs raw A N G)
include h

theorem FlagInv.modifyPage {f : Page → Page} {bufs' : Nat → Option Bool}
    (hc : c ∈ A) (hp : p ∈ c) (hnone : G p = none)
    (hblock : ∀ a ∈ live, ∀ b, BlockOk clientFlags s A b → s.kva b.start = a.1 → p ∉ b)
    (hhead : (f (s.alloc.pages p)).flag &&& pgHead = (s.alloc.pages p).flag &&& pgHead)
    (hsize : (f (s.alloc.pages p)).size = (s.alloc.pages p).size)
    (hmagic : (f (s.alloc.pages p)).magic = (s.alloc.pages p).magic)
    (href : (f (s.alloc.pages p)).refCnt = (s.alloc.pages p).refCnt ∨
      p = c.start ∧ 0 < (f (s.alloc.pages p)).refCnt)
    (hbuf : ∀ q v, bufs' q = some v →
      q ≠ p ∧ bufs q = some v ∨ BufOk (s.modifyPage p f) A q v) :
    FlagInv (s.modifyPage p f) live bufs' raw A N G := by
  have hhead' : pageHead (f (s.alloc.pages p)) = pageHead (s.alloc.pages p) := by
    rw [pageHead, pageHead, hhead]
  refine ⟨h.kmalloc.modifyPage hc hp hnone hblock hhead' hsize hmagic href, ?_, ?_⟩
  · intro q v hq
    rcases hbuf q v hq with ⟨hqp, hold⟩ | hnew
    · have hbufq := h.buf q v hold
      have hg : Grows s (s.modifyPage p f) {b | b ∈ A ∧ p ∉ b} {b | b ∈ A ∧ p ∉ b} ∅ :=
        (Grows.rfl s _ ∅).modifyPage fun b hb => hb.2
      refine hbufq.grows hg ⟨hbufq.mem, fun hpq => ?_⟩ hbufq.mem
      rw [Block.mem_def] at hpq
      dsimp only at hpq
      omega
    · exact hnew
  · exact fun b hb => ⟨(h.raw b hb).mem, (h.raw b hb).unmapped⟩

theorem FlagInv.setBuf {v : Bool} {f : BitVec 16 → BitVec 16}
    (hbuf : bufs p = some v)
    (hkeep : f (s.alloc.pages p).flag &&& bufMask = (s.alloc.pages p).flag &&& bufMask) :
    FlagInv (s.modifyPage p fun q => { q with flag := f q.flag }) live
      (update bufs p (some true)) raw A N G := by
  have hok := h.buf p v hbuf
  refine h.modifyPage hok.mem (Block.start_mem _) (hok.not_slab h.kmalloc.heap.slabs)
    (fun _ _ b hb _ => hok.not_block hb) (and_of_mask (by decide) hkeep) rfl rfl (Or.inl rfl) ?_
  intro q w hq
  by_cases hqp : q = p
  · subst hqp
    rw [update_self] at hq
    cases hq
    have hpage : (s.modifyPage q fun q => { q with flag := f q.flag }).alloc.pages q =
        { s.alloc.pages q with flag := f (s.alloc.pages q).flag } := if_pos rfl
    refine Or.inr ⟨hok.mem, ⟨?_, hok.mapped.lt, hok.mapped.entry⟩, ?_, ?_, fun h => by cases h⟩
    · rw [hpage]
      exact hok.mapped.data
    · have hcache : f (s.alloc.pages q).flag &&& pgCache = (s.alloc.pages q).flag &&& pgCache :=
        and_of_mask (by decide) hkeep
      rw [hpage, hcache]
      exact hok.cache
    · have hslab : f (s.alloc.pages q).flag &&& pgSlab = (s.alloc.pages q).flag &&& pgSlab :=
        and_of_mask (by decide) hkeep
      rw [hpage, isSlab, hslab]
      exact hok.slab
  · rw [update_of_ne hqp] at hq
    exact Or.inl ⟨hqp, hq⟩

theorem FlagInv.setFrame {v : Bool}
    (hbuf : bufs p = some v) : FlagInv (s.setFrame (s.frame p) words) live bufs raw A N G := by
  have hok := h.buf p v hbuf
  have hlt : p < s.alloc.pageCnt := h.kmalloc.heap.kernel.owns.start_lt hok.mem
  refine ⟨h.kmalloc.setFrame (h.kmalloc.heap.setFrame hlt (hok.not_slab h.kmalloc.heap.slabs)), ?_, ?_⟩
  · intro q w hq
    have hq := h.buf q w hq
    exact ⟨hq.mem, hq.mapped.setFrame, hq.cache, hq.slab, hq.valid⟩
  · exact fun b hb => ⟨(h.raw b hb).mem, (h.raw b hb).unmapped⟩

theorem FlagInv.pageRw {v : Bool}
    (hbuf : bufs p = some v) (hok : s.pageRw p words = .ok s') :
    FlagInv s' live (update bufs p (some true)) raw A N G := by
  have hkeep : ∀ x : BitVec 16, (x &&& ~~~pgDirty ||| pgValid) &&& bufMask = x &&& bufMask := by
    intro x
    have hmask : ~~~pgDirty &&& bufMask = bufMask := by decide
    rw [or_and_disjoint (by decide), BitVec.and_assoc, hmask]
  obtain ⟨s1, hread, hret⟩ := bind_eq_ok hok
  cases hret
  have hinv : FlagInv s1 live bufs raw A N G := by
    rw [transfer] at hread
    split at hread
    · cases hread
      exact h
    · obtain ⟨f, hframe, hret⟩ := bind_eq_ok hread
      cases hret
      have hm := (h.buf p v hbuf).mapped
      have hlt := h.kmalloc.heap.kernel.owns.start_lt (h.buf p v hbuf).mem
      have hat := hm.frameAt (o := 0) (h.kmalloc.heap.kernel.pageAddr_mod hlt) (by decide)
      rw [hm.data] at hframe
      rw [Nat.add_zero, hframe] at hat
      cases hat
      exact h.setFrame hbuf
  exact hinv.setBuf (f := fun x => x &&& ~~~pgDirty ||| pgValid) hbuf (hkeep _)

theorem FlagInv.seen {v : Bool} (hbuf : bufs p = some v) :
    FlagInv s live (update bufs p (some true)) raw A N G := by
  refine ⟨h.kmalloc, fun q w hq => ?_, h.raw⟩
  by_cases hqp : q = p
  · subst hqp
    rw [update_self] at hq
    cases hq
    have hok := h.buf q v hbuf
    exact ⟨hok.mem, hok.mapped, hok.cache, hok.slab, fun h => by cases h⟩
  · rw [update_of_ne hqp] at hq
    exact h.buf q w hq

theorem FlagInv.kmallocStep {addr : Nat} (hpos : 1 ≤ n)
    (hle : n ≤ 4 * 0x100000) (hok : s.kmalloc n = .ok (addr, s')) :
    ∃ A' N' G', FlagInv s' ((addr, n) :: live) bufs raw A' N' G' := by
  obtain ⟨A', N', G', hinv, hg⟩ := h.kmalloc.kmalloc clientMask_all hpos hle hok
  refine ⟨A', N', G', hinv, fun p v hp => ?_, fun b hb => ?_⟩
  · exact (h.buf p v hp).grows hg (h.buf p v hp).mem (hg.sub (h.buf p v hp).mem)
  · exact (h.raw b hb).grows hg (h.raw b hb).mem (hg.sub (h.raw b hb).mem)

theorem FlagInv.kfreeStep {addr : Nat} (hc : (addr, n) ∈ live)
    (hok : s.kfree addr = .ok s') :
    ∃ A' N' G', FlagInv s' (live.erase (addr, n)) bufs raw A' N' G' := by
  obtain ⟨A', N', G', P, hinv, hg, hstay⟩ := h.kmalloc.kfree clientMask_all hc hok
  refine ⟨A', N', G', hinv, fun p v hp => ?_, fun b hb => ?_⟩
  · have hp := h.buf p v hp
    rcases hstay _ hp.mem with hmem | hblock
    · exact hp.grows hg hmem hmem
    · exact absurd (Block.start_mem _) (hp.not_block hblock)
  · have hb := h.raw b hb
    rcases hstay _ hb.mem with hmem | hblock
    · exact hb.grows hg hmem hmem
    · exact absurd rfl (hb.not_block hblock)

theorem FlagInv.newBufStep (hok : s.newBuf = .ok (p, s')) :
    ∃ A', FlagInv s' live (update bufs p (some false)) raw A' N G := by
  obtain ⟨⟨q, s1⟩, halloc, hok⟩ := bind_eq_ok hok
  obtain ⟨s2, hmap, hret⟩ := bind_eq_ok hok
  cases hret
  have hk := h.kmalloc.heap.kernel
  obtain ⟨_, herr⟩ | herr | ⟨q, s1', s2', halloc', hmap', hdata, hk', hnew⟩ :=
    allocMap_block (k := 0) hk h.kmalloc.ready (by decide)
  · cases halloc.symm.trans herr
  · cases halloc.symm.trans herr
  cases halloc.symm.trans halloc'
  cases hmap.symm.trans hmap'
  have hblock := hnew.block clientFlags clientMask_all h.kmalloc.clean
  have hbare : (s2.alloc.pages p).flag &&& clientFlags = 0#16 := hblock.flag p (Block.start_mem _)
  have hnone : G p = none := by
    cases hg : G p with
    | none => rfl
    | some g =>
      exact absurd (Block.start_mem _) (hnew.fresh _ (h.kmalloc.heap.slabs.mem p g hg) p
        (Block.start_mem _))
  have hinv : FlagInv s2 live bufs raw (insert ⟨p, 0⟩ A) N G := by
    refine ⟨h.kmalloc.grow clientMask_all hk' hnew, fun q v hq => ?_, fun b hb => ?_⟩
    · exact (h.buf q v hq).grows hnew.grows (h.buf q v hq).mem (Or.inr (h.buf q v hq).mem)
    · exact (h.raw b hb).grows hnew.grows (h.raw b hb).mem (Or.inr (h.raw b hb).mem)
  have hmask : ∀ w, clientFlags &&& w = w → (s2.alloc.pages p).flag &&& w = 0#16 := by
    intro w hw
    rw [and_of_mask hw (hbare.trans BitVec.zero_and.symm), BitVec.zero_and]
  refine ⟨_, hinv.modifyPage (c := ⟨p, 0⟩) (Or.inl rfl) (Block.start_mem _) hnone ?_
    (or_and_disjoint (by decide)) rfl rfl (Or.inl rfl) ?_⟩
  · intro a ha b hb he hpb
    obtain rfl := hk'.owns.eq_of_mem hb.mem (Or.inl rfl) hpb (Block.start_mem _)
    exact h.kmalloc.ne_new clientMask_all hk' hnew a ha he.symm
  · intro q v hq
    by_cases hqp : q = p
    · subst hqp
      rw [update_self] at hq
      cases hq
      have hpage : (s2.modifyPage q fun r => { r with flag := r.flag ||| pgCache }).alloc.pages q =
          { s2.alloc.pages q with flag := (s2.alloc.pages q).flag ||| pgCache } := if_pos rfl
      have hm := hblock.kMapped hk' hnew.ready
      refine Or.inr ⟨Or.inl rfl, ⟨?_, hm.lt, hm.entry⟩, ?_, ?_, fun _ => ?_⟩
      · rw [hpage]
        exact hm.data
      · rw [hpage]
        intro hzero
        have hbit := congrArg (fun x => BitVec.getLsbD x 4) hzero
        simp [pgCache] at hbit
      · rw [hpage]
        have hslab : ((s2.alloc.pages q).flag ||| pgCache) &&& pgSlab = 0#16 := by
          rw [or_and_disjoint (by decide), hmask pgSlab (by decide)]
        rw [isSlab, hslab]
        rfl
      · rw [hpage]
        change ((s2.alloc.pages q).flag ||| pgCache) &&& pgValid = 0#16
        rw [or_and_disjoint (by decide), hmask pgValid (by decide)]
    · rw [update_of_ne hqp] at hq
      exact Or.inl ⟨hqp, hq⟩

theorem FlagInv.allocPageStep {k : Nat} (hle : k ≤ maxOrder)
    (hfix : fixSize n = orderSize k) (hok : s._allocPage n = .ok (p, s')) :
    FlagInv s' live bufs (insert ⟨p, k⟩ raw) (insert ⟨p, k⟩ A) N G ∧ Bare s' ⟨p, k⟩ := by
  have hheap := h.kmalloc.heap
  obtain ⟨hk', hframe, hg, hs'⟩ := allocPage_spec hheap.kernel hle hfix hok
  have htab : s'.kPageTables = s.kPageTables := by
    rw [hs']
    rfl
  have hunmapped : ∀ q < s.alloc.pageCnt, (∀ c ∈ A, q ∉ c) → s'.kPageTables (s'.frame q) &&& vmPres = 0 := by
    intro q hq hfree
    rw [htab, hg.frame]
    exact h.kmalloc.ready.unmapped q hq hfree
  have hbare : ∀ q < s.alloc.pageCnt, (∀ c ∈ A, q ∉ c) → (s'.alloc.pages q).flag &&& clientFlags = 0#16 := by
    intro q hq hfree
    rw [hframe.flag]
    exact h.kmalloc.clean q hq hfree
  refine ⟨⟨?_, ?_, ?_⟩, fun q hq => hbare q (hframe.managed q hq) fun c hc => hframe.fresh c hc q hq⟩
  · refine h.kmalloc.keep (List.Sublist.refl _) hk' (hheap.counted.alloc hframe) ⟨?_, ?_⟩ ?_ ?_ hg ?_ ?_
    · rw [hframe.addr, hframe.pageCnt]
      exact h.kmalloc.ready.top
    · exact fun q hq hfree => hunmapped q (hframe.pageCnt ▸ hq) fun c hc => hfree c (Or.inr hc)
    · exact fun q hq hfree => hbare q (hframe.pageCnt ▸ hq) fun c hc => hfree c (Or.inr hc)
    · rw [hs']
      rfl
    · exact fun q g hq => ⟨hheap.slabs.mem q g hq, Or.inr (hheap.slabs.mem q g hq)⟩
    · exact fun _ _ b hb _ => ⟨hb.mem, Or.inr hb.mem⟩
  · exact fun q v hq => (h.buf q v hq).grows hg (h.buf q v hq).mem (Or.inr (h.buf q v hq).mem)
  · rintro b (rfl | hb)
    · exact ⟨Or.inl rfl, fun q hq => hunmapped q (hframe.managed q hq) fun c hc => hframe.fresh c hc q hq⟩
    · exact (h.raw b hb).grows hg (h.raw b hb).mem (Or.inr (h.raw b hb).mem)

theorem FlagInv.modifyRaw {f : Page → Page} (hb : b ∈ raw)
    (hq : q ∈ b) (hhead : (f (s.alloc.pages q)).flag &&& pgHead = (s.alloc.pages q).flag &&& pgHead)
    (hsize : (f (s.alloc.pages q)).size = (s.alloc.pages q).size)
    (hmagic : (f (s.alloc.pages q)).magic = (s.alloc.pages q).magic)
    (href : (f (s.alloc.pages q)).refCnt = (s.alloc.pages q).refCnt ∨
      q = b.start ∧ 0 < (f (s.alloc.pages q)).refCnt) :
    FlagInv (s.modifyPage q f) live bufs raw A N G := by
  have hraw := h.raw b hb
  refine h.modifyPage hraw.mem hq (hraw.not_slab h.kmalloc.heap.slabs hq) ?_ hhead hsize hmagic href ?_
  · exact fun _ _ c hc _ => hraw.notMem_block h.kmalloc.heap.kernel hq hc
  · intro r v hr
    refine Or.inl ⟨?_, hr⟩
    rintro rfl
    exact hraw.not_buf (h.buf r v hr) hq

theorem FlagInv.unrefStep (hb : b ∈ raw)
    (href : 1 < (s.alloc.pages b.start).refCnt) (hok : s._freePage b.start = .ok s') :
    FlagInv s' live bufs raw A N G := by
  have hraw := h.raw b hb
  obtain ⟨a, hfree, hret⟩ := bind_eq_ok hok
  cases hret
  rw [_freePage_eq (by omega) (h.kmalloc.heap.kernel.owns.head hraw.mem)] at hfree
  split at hfree
  · cases hfree
  cases hfree
  refine h.modifyRaw hb b.start_mem rfl rfl rfl (Or.inr ⟨rfl, ?_⟩)
  change 0 < (s.alloc.pages b.start).refCnt - 1
  omega

theorem FlagInv.freePageStep (hb : b ∈ raw)
    (href : (s.alloc.pages b.start).refCnt = 1) (hbare : Bare s b) (hok : s._freePage b.start = .ok s') :
    FlagInv s' live bufs (raw \ {b}) (A \ {b}) N G := by
  have hraw := h.raw b hb
  have hslabs := h.kmalloc.heap.slabs
  obtain ⟨_, herr⟩ | ⟨s1, hrun, hk', hfreed⟩ := free_block h.kmalloc.heap h.kmalloc.ready hraw.mem
    (hraw.not_slab hslabs b.start_mem) href hraw.unmapped
  · rw [hok] at herr
    cases herr
  rw [hok] at hrun
  cases hrun
  refine ⟨h.kmalloc.keep (List.Sublist.refl _) hk' hfreed.counted hfreed.ready
    (hfreed.clean _ clientMask_all hbare h.kmalloc.clean) hfreed.slabs hfreed.grows ?_ ?_, ?_, ?_⟩
  · intro q g hq
    have hmem : (⟨q, 0⟩ : Block) ∈ A \ {b} := by
      refine ⟨hslabs.mem q g hq, ?_⟩
      rintro rfl
      rw [hraw.not_slab hslabs (Block.start_mem _)] at hq
      cases hq
    exact ⟨hmem, hmem⟩
  · intro _ _ c hc _
    have hmem : c ∈ A \ {b} := ⟨hc.mem, fun he => hraw.not_block hc he.symm⟩
    exact ⟨hmem, hmem⟩
  · intro q v hq
    have hbuf := h.buf q v hq
    have hmem : (⟨q, 0⟩ : Block) ∈ A \ {b} := by
      refine ⟨hbuf.mem, ?_⟩
      rintro rfl
      exact hraw.not_buf hbuf (Block.start_mem _)
    exact hbuf.grows hfreed.grows hmem hmem
  · rintro c ⟨hc, hcb⟩
    exact (h.raw c hc).grows hfreed.grows ⟨(h.raw c hc).mem, hcb⟩ ⟨(h.raw c hc).mem, hcb⟩

end

theorem FlagInv.step {live' : List (Nat × Nat)} {bufs' : Nat → Option Bool} {raw' : Set Block}
    (h : FlagInv s live bufs raw A N G) (hstep : FlagStep s live bufs raw s' live' bufs' raw') :
    ∃ A' N' G', FlagInv s' live' bufs' raw' A' N' G' := by
  cases hstep with
  | kmalloc hpos hle hok =>
    exact h.kmallocStep hpos hle hok
  | kfree hlive hok =>
    exact h.kfreeStep hlive hok
  | newBuf hok =>
    obtain ⟨A', h'⟩ := h.newBufStep hok
    exact ⟨A', N, G, h'⟩
  | pageRead hbuf hok =>
    rw [Vm.pageRead] at hok
    split at hok
    · cases hok
      exact ⟨A, N, G, h.seen hbuf⟩
    · obtain ⟨s1, hrw, hret⟩ := bind_eq_ok hok
      cases hret
      exact ⟨A, N, G, h.pageRw hbuf hrw⟩
  | pageReadSync hbuf hok =>
    exact ⟨A, N, G, h.pageRw hbuf hok⟩
  | pageSync hbuf hok =>
    have hmark := h.setBuf (f := fun x => x ||| (pgDirty ||| pgValid)) hbuf (or_and_disjoint (by decide))
    have hrw := hmark.pageRw (update_self _ _ _) hok
    rw [update_idem] at hrw
    exact ⟨A, N, G, hrw⟩
  | markPageDirty hbuf hok =>
    obtain ⟨_, _, hok⟩ := bind_eq_ok hok
    split at hok
    · cases hok
      exact ⟨A, N, G, h.setBuf (f := fun x => x ||| (pgDirty ||| pgValid)) hbuf
        (or_and_disjoint (by decide))⟩
    · cases hok
      exact ⟨A, N, G, h.seen hbuf⟩
  | allocPage hmin hmax hok =>
    obtain ⟨hle, hfix⟩ := fixSize_log2 hmin hmax
    exact ⟨_, N, G, (h.allocPageStep hle hfix hok).1⟩
  | setFlags hb hq hflag =>
    exact ⟨A, N, G, h.modifyRaw hb hq (and_of_mask (by decide) hflag) rfl rfl (Or.inl rfl)⟩
  | ref hb hlt =>
    refine ⟨A, N, G, h.modifyRaw hb (Block.start_mem _) rfl rfl rfl (Or.inr ⟨rfl, ?_⟩)⟩
    rw [Nat.mod_eq_of_lt hlt]
    exact Nat.succ_pos _
  | unref hb href hok =>
    exact ⟨A, N, G, h.unrefStep hb href hok⟩
  | freePage hb href hbare hok =>
    exact ⟨_, N, G, h.freePageStep hb href hbare hok⟩

theorem FlagRun.inv {s0 : Vm} (h0 : FreshHeap s0 A N) (hclean : Clean clientFlags s0 A)
    (hrun : FlagRun s0 s live bufs raw) : ∃ A' N' G', FlagInv s live bufs raw A' N' G' := by
  induction hrun with
  | start =>
    refine ⟨A, N, fun _ => none, ⟨⟨h0.kernel, h0.counted, slabs_none h0.lists⟩, h0.ready, hclean, ?_,
      List.nodup_nil⟩, ?_, ?_⟩
    · exact fun c hc => absurd hc List.not_mem_nil
    · exact fun p v hp => absurd hp.symm (Option.some_ne_none v)
    · exact fun b hb => absurd hb (Set.notMem_empty b)
  | step _ hstep ih =>
    obtain ⟨A', N', G', h⟩ := ih
    exact h.step hstep

/-- Whoever gets a block from `__alloc_page` finds it bare, `page_read` reads a page of the page cache
that nobody read or wrote since `new_buf`, and `kfree` does not take a large allocation for a slab. -/
structure FlagsFresh (s : Vm) (live : List (Nat × Nat)) (bufs : Nat → Option Bool) : Prop where
  next : ∀ n p s', 4096 ≤ fixSize n → fixSize n ≤ 4 * 0x100000 → s._allocPage n = .ok (p, s') →
    Bare s' ⟨p, Nat.log2 (fixSize n >>> 12)⟩
  buf : ∀ p, bufs p = some false → (s.alloc.pages p).flag &&& pgValid = 0 ∧
    ∀ words asked s', s.pageRead p words = .ok (asked, s') → asked = true
  large : ∀ c ∈ live, slabMax < fixSize c.2 → ∃ p, s.vaGetPage (pageCeil c.1) = .ok (some p) ∧
    isSlab (s.alloc.pages p) = false

theorem pageRead_asked {asked : Bool}
    (hvalid : (s.alloc.pages p).flag &&& pgValid = 0) (hok : s.pageRead p words = .ok (asked, s')) :
    asked = true := by
  rw [pageRead, if_neg (by rw [hvalid]; exact fun h => h rfl)] at hok
  obtain ⟨_, _, hret⟩ := bind_eq_ok hok
  cases hret
  rfl

/-- Flags do not survive a free as long as only bare blocks are freed. -/
theorem flagRun_fresh {s0 : Vm} (h0 : FreshHeap s0 A N) (hclean : Clean clientFlags s0 A)
    (hrun : FlagRun s0 s live bufs raw) : FlagsFresh s live bufs := by
  obtain ⟨A', N', G', h⟩ := hrun.inv h0 hclean
  refine ⟨?_, ?_, ?_⟩
  · intro n p s' hmin hmax hok
    obtain ⟨hle, hfix⟩ := fixSize_log2 hmin hmax
    exact (h.allocPageStep hle hfix hok).2
  · intro p hp
    have hvalid := (h.buf p false hp).valid rfl
    exact ⟨hvalid, fun words asked s' hok => pageRead_asked hvalid hok⟩
  · intro c hc hlarge
    obtain ⟨p, hpage, hslab⟩ := Held.path clientMask_all (h.kmalloc.held c hc) h.kmalloc.heap h.kmalloc.ready
    refine ⟨p, hpage, ?_⟩
    rw [Bool.eq_false_iff, Ne, hslab]
    exact hlarge.not_ge

def smallFlags : Except Fault (Nat × Nat × Vm) := do
  let (addr, s) ← (boot 4).kmalloc 5000
  let (buf, s) ← s.newBuf
  let (page, s) ← s._allocPage 4096
  assertk ((s.alloc.pages page).refCnt = 1 ∧ (s.alloc.pages page).flag &&& clientFlags = 0#16)
  let s ← s._freePage page
  .ok (addr, buf, s)

theorem flagRun_fresh_small : ∃ (s : Vm) (addr buf : Nat),
    FlagRun (boot 4) s [(addr, 5000)] (update (fun _ => none) buf (some false)) ∅ ∧
      FlagsFresh s [(addr, 5000)] (update (fun _ => none) buf (some false)) := by
  obtain ⟨⟨addr, buf, s⟩, hok⟩ := exists_ok (x := smallFlags) (by decide +kernel)
  obtain ⟨⟨_, s1⟩, hmalloc, hok⟩ := bind_eq_ok hok
  simp only [bind_ok_iff, Prod.exists] at hok
  obtain ⟨_, s2, hbuf, page, s3, halloc, _, hpage, s4, hfree, hret⟩ := hok
  cases hret
  have hassert := of_assertk hpage
  have hrun := ((FlagRun.start.step (.kmalloc (by decide) (by decide) hmalloc)).step (.newBuf hbuf)).step
    (.allocPage (by decide) (by decide) halloc)
  have hbare : Bare s3 ⟨page, Nat.log2 (fixSize 4096 >>> 12)⟩ := by
    intro q hq
    rw [Block.mem_def] at hq
    have horder : 2 ^ Nat.log2 (fixSize 4096 >>> 12) = 1 := by decide
    dsimp only at hq
    rw [horder] at hq
    rw [show q = page by omega]
    exact hassert.2
  have hrun' := hrun.step (.freePage (Or.inl rfl) hassert.1 hbare hfree)
  rw [Set.insert_sdiff_of_mem _ (Set.mem_singleton _), Set.empty_sdiff] at hrun'
  exact ⟨s, addr, buf, hrun', flagRun_fresh (boot_freshHeap (by decide)) (boot_clean clientMask_all 4) hrun'⟩

def staleBuf : Except Fault (Nat × Vm × Vm × Vm × Vm × Vm × Vm) := do
  let (buf, s1) ← (boot 0).newBuf
  let (asked, s2) ← s1.pageRead buf fun _ => 0
  let s3 ← s2.kfree (s2.alloc.pages buf).data
  let (page, s4) ← s3._allocPage 4096
  let (page', s5) ← s3.newBuf
  let (asked', s6) ← s5.pageRead buf fun _ => 0
  assertk (asked = true ∧ page = buf ∧ page' = buf ∧ asked' = false ∧ (s2.alloc.pages buf).refCnt = 1 ∧
    (s4.alloc.pages buf).flag &&& clientFlags = pgCache ||| pgValid)
  .ok (buf, s1, s2, s3, s4, s5, s6)

/-- The next owner finds the flags, and `page_read` takes the memory of `new_buf` for the disk's. -/
theorem staleBuf_flags : ∃ (s1 s2 s3 s4 s5 s6 : Vm) (buf : Nat), (boot 0).newBuf = .ok (buf, s1) ∧
    (s1.pageRead buf fun _ => 0) = .ok (true, s2) ∧ (s2.alloc.pages buf).refCnt = 1 ∧
    s2.kfree (s2.alloc.pages buf).data = .ok s3 ∧ s3._allocPage 4096 = .ok (buf, s4) ∧
    (s4.alloc.pages buf).flag &&& clientFlags = pgCache ||| pgValid ∧ s3.newBuf = .ok (buf, s5) ∧
    (s5.pageRead buf fun _ => 0) = .ok (false, s6) := by
  obtain ⟨⟨buf, s1, s2, s3, s4, s5, s6⟩, hok⟩ := exists_ok (x := staleBuf) (by decide +kernel)
  obtain ⟨⟨_, _⟩, hnew, hok⟩ := bind_eq_ok hok
  simp only [bind_ok_iff, Prod.exists] at hok
  obtain ⟨asked, _, hread, _, hfree, page, _, halloc, page', _, hnew', asked', _, hread', _, hassert,
    hret⟩ := hok
  cases hret
  obtain ⟨rfl, rfl, rfl, rfl, href, hflag⟩ := of_assertk hassert
  exact ⟨s1, s2, s3, s4, s5, s6, _, hnew, hread, href, hfree, halloc, hflag, hnew', hread'⟩

end Vm

end QuarkOS
