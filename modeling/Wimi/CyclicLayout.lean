import Wimi.PageLists
import Wimi.Ring
import Wimi.TransferBuild

/-!
# The descriptors of the ring

What `cyclic_transfer_setup` makes of the pages of `rx_buffer`. The table is built as a terminated
transfer of one descriptor a page; its source addresses are then replaced by result addresses, its
control bytes by one without `XDMA_DESC_STOPPED`, and its last descriptor linked to its first.

`cyclic_layout` : the engine goes round the descriptors for ever, and each writes its block and its
result where the driver reads them.
-/

namespace Wimi

/-- `sizeof(struct xdma_result)`. -/
def resultSize : ℕ := 32

def RX_RESULT_BUF_SIZE : ℕ := RX_BUF_PAGES * resultSize

/-! ## Operations on a transfer -/

/-- `xdma_desc_control_clear`. None is the `BUG_ON` for bits outside the control byte. -/
def xdmaDescControlClear (first : XdmaDesc) (clearMask : U32) : Option XdmaDesc :=
  if clearMask &&& ~~~LS_BYTE_MASK ≠ 0 then none
  else some { first with control := first.control &&& ~~~clearMask }

/-- `xdma_desc_control_set`. None is the `BUG_ON` for bits outside the control byte. -/
def xdmaDescControlSet (first : XdmaDesc) (setMask : U32) : Option XdmaDesc :=
  if setMask &&& ~~~LS_BYTE_MASK ≠ 0 then none
  else some { first with control := first.control ||| setMask }

/-- `xdma_desc_set_source`. -/
def xdmaDescSetSource (desc : XdmaDesc) (source : U64) : XdmaDesc :=
  { desc with srcAddrLo := pciDmaL source, srcAddrHi := pciDmaH source }

/-- The loop of `transfer_set_result_addresses`, after its first `i` turns. -/
def setResultAddresses (t : DescTable) (resultBus : U64) : ℕ → DescTable × U64
  | 0 => (t, resultBus)
  | i + 1 =>
    let (t, resultBus) := setResultAddresses t resultBus i
    (Function.update t i (xdmaDescSetSource (t i) resultBus),
      resultBus + BitVec.ofNat 64 resultSize)

/-- `transfer_set_result_addresses`. -/
def transferSetResultAddresses (transfer : BuiltTransfer) (resultBus : U64) : BuiltTransfer :=
  { transfer with descVirt := (setResultAddresses transfer.descVirt resultBus transfer.descNum).1 }

/-- The loop of `transfer_set_all_control`, after its first `i` turns. -/
def setAllControl (t : DescTable) (control : U32) : ℕ → Option DescTable
  | 0 => some t
  | i + 1 => do
    let t ← setAllControl t control i
    let d ← xdmaDescControlClear (t i) LS_BYTE_MASK
    let d ← xdmaDescControlSet d control
    some (Function.update t i d)

/-- `transfer_set_all_control`. -/
def transferSetAllControl (transfer : BuiltTransfer) (control : U32) : Option BuiltTransfer := do
  let t ← setAllControl transfer.descVirt control transfer.descNum
  some { transfer with descVirt := t }

/-- `xdma_transfer_cyclic`. -/
def xdmaTransferCyclic (transfer : BuiltTransfer) : BuiltTransfer :=
  let last := transfer.descNum - 1
  { transfer with
    descVirt := Function.update transfer.descVirt last
      (xdmaDescLink (transfer.descVirt last) (some transfer.descBus)) }

/-! ## The ring -/

/-- The length of `rx_buffer`. -/
def rxBytes : U64 := BitVec.ofNat 64 RX_BUF_SIZE

/-- What `cyclic_transfer_setup` gets : `rx_buffer`, with pages from `vmalloc` that are mapped one
by one, the memory of the descriptor table and the result buffer. `dma` is where a page is mapped
to. -/
structure RingEnv where
  rxBuffer : U64
  vmallocToPage : U64 → Option ℕ
  dma : ℕ → U64
  mem : DescTable
  descBus : U64
  resultBus : U64
  aligned : offsetInPage rxBuffer = 0
  not_wraps : ¬ rxBuffer + rxBytes < rxBuffer
  found : ∀ i < RX_BUF_PAGES,
    (vmallocToPage (rxBuffer + BitVec.ofNat 64 (PAGE_SIZE * i))).isSome

/-- Page `i` of `rx_buffer`. -/
def RingEnv.page (env : RingEnv) (i : ℕ) : ℕ :=
  (env.vmallocToPage (env.rxBuffer + BitVec.ofNat 64 (PAGE_SIZE * i))).getD 0

/-- Where page `i` of `rx_buffer` is mapped to. -/
def RingEnv.bus (env : RingEnv) (i : ℕ) : U64 :=
  env.dma (env.page i)

/-- What `cyclic_transfer_setup` has its chain built with, on an engine that writes to the host. -/
def ringArgs : BuildArgs where
  pageSize := pageBytes
  dirToDev := false
  nonIncrAddr := false
  forceNewDesc := true
  userspace := false

/-- `transfer_create`, for `rx_buffer`. None are its `BUG_ON`s. -/
def createRing (env : RingEnv) : Option BuiltTransfer := do
  let m ← SgMapping.sgCreateMapper true rxBytes
  let sgl ← (m.sgmKernelPages env.vmallocToPage env.rxBuffer rxBytes).entries
  transferCreate ringArgs env.mem env.descBus 0 (sgl.map (PageEntry.mapped env.dma))

/-- The transfer `cyclic_transfer_setup` queues. -/
def cyclicRing (env : RingEnv) : Option BuiltTransfer := do
  let transfer ← createRing env
  let transfer ← transferSetAllControl (transferSetResultAddresses transfer env.resultBus)
    (XDMA_DESC_EOP ||| XDMA_DESC_COMPLETED)
  some (xdmaTransferCyclic transfer)

/-! ## The loops -/

theorem setResultAddresses_eq (t : DescTable) (resultBus : U64) (i : ℕ) :
    setResultAddresses t resultBus i =
      (fun k => if k < i
        then xdmaDescSetSource (t k) (resultBus + BitVec.ofNat 64 (resultSize * k)) else t k,
        resultBus + BitVec.ofNat 64 (resultSize * i)) := by
  induction i with
  | zero => simp [setResultAddresses]
  | succ i ih =>
    rw [setResultAddresses, ih]
    simp only [lt_irrefl, if_false]
    rw [update_below t fun k => xdmaDescSetSource (t k)
      (resultBus + BitVec.ofNat 64 (resultSize * k)), BitVec.add_assoc, ← BitVec.ofNat_add,
      Nat.mul_succ]

theorem setAllControl_eq (t : DescTable) {control : U32} (h : control &&& ~~~LS_BYTE_MASK = 0)
    (i : ℕ) :
    setAllControl t control i =
      some fun k => if k < i then (t k).withControlByte control else t k := by
  have hmask : LS_BYTE_MASK &&& ~~~LS_BYTE_MASK = 0 := by decide
  induction i with
  | zero => simp [setAllControl]
  | succ i ih =>
    rw [setAllControl, ih, Option.bind_eq_bind, Option.bind_some]
    simp only [xdmaDescControlClear, xdmaDescControlSet, hmask, h, ne_eq, not_true_eq_false,
      if_false, lt_irrefl, Option.bind_eq_bind, Option.bind_some]
    exact congrArg some (update_below t (fun k => (t k).withControlByte control) i)

/-! ## The chain before it is closed -/

/-- Where every entry gets a descriptor of its own, none are merged. -/
theorem merge_forced {c : BuildArgs} (hforce : c.forceNewDesc = true)
    (hkernel : c.userspace = false) (e : SgEntry) (rest : List SgEntry) :
    merge c e.addr 0 e rest = e :: rest := by
  have hlen (d : SgEntry) : (⟨d.addr, 0 + d.len⟩ : SgEntry) = d :=
    congrArg (SgEntry.mk d.addr) (BitVec.zero_add _)
  induction rest generalizing e with
  | nil => rw [merge, hlen]
  | cons next rest ih =>
    have hnew : c.newDesc (0 + e.len) e next = true := by
      simp [BuildArgs.newDesc, hforce, hkernel]
    rw [merge, if_pos hnew, ih, hlen]

/-- The blocks of `rx_buffer`, where they are mapped. -/
def RingEnv.blocks (env : RingEnv) : List SgEntry :=
  (List.range RX_BUF_PAGES).map fun k => ⟨env.bus k, RX_BUF_BLOCK⟩

@[simp] theorem RingEnv.length_blocks (env : RingEnv) : env.blocks.length = RX_BUF_PAGES := by
  rw [RingEnv.blocks, List.length_map, List.length_range]

/-- The places of the pages of `rx_buffer`. -/
def rxPages : List PageEntry :=
  (List.range RX_BUF_PAGES).map fun k => ⟨k, 0, RX_BUF_BLOCK⟩

variable (env : RingEnv) in
theorem RingEnv.vmallocToPage_eq {i : ℕ} (hi : i < RX_BUF_PAGES) :
    env.vmallocToPage (env.rxBuffer + BitVec.ofNat 64 (PAGE_SIZE * i)) = some (env.page i) := by
  obtain ⟨page, hpage⟩ := Option.isSome_iff_exists.mp (env.found i hi)
  rw [RingEnv.page, hpage, Option.getD_some]

/-- `sgm_kernel_pages` lists every block as a page. -/
theorem sgmKernelPages_rxBuffer (env : RingEnv) :
    SgMapping.sgmKernelPages ⟨maxPages rxBytes, 0⟩ env.vmallocToPage env.rxBuffer rxBytes =
      some (.ok (RX_BUF_PAGES, rxPages.map (PageEntry.on env.page))) := by
  have hcount : rxBytes ≠ 0 := by decide
  have hfew : FewPages rxBytes := by
    rw [FewPages]
    decide
  have htouched : touchedPages env.rxBuffer rxBytes = RX_BUF_PAGES := by
    have hoff := offsetInPage_toNat env.rxBuffer
    have hzero : (0 : U64).toNat = 0 := rfl
    have hsize : rxBytes.toNat = 0x100000 := rfl
    have hpage : PAGE_SIZE = 4096 := rfl
    have hpages : RX_BUF_PAGES = 256 := rfl
    rw [env.aligned, hpage, hzero] at hoff
    rw [touchedPages, hsize, hpage, hpages]
    omega
  have hfull : populateSgl env.rxBuffer rxBytes RX_BUF_PAGES = some rxPages :=
    populateSgl_full 254 env.aligned rfl
  obtain ⟨es, hes, hlist⟩ := @populateSgl_isPageList env.rxBuffer rxBytes (by decide)
  obtain rfl : es = rxPages := by
    rw [htouched, hfull] at hes
    exact (Option.some.inj hes).symm
  rw [sgmKernelPages_of_found hcount hfew env.not_wraps hes hlist
    fun i hi => env.vmallocToPage_eq (htouched ▸ hi), htouched]

theorem rxPages_mapped (env : RingEnv) :
    (rxPages.map (PageEntry.on env.page)).map (PageEntry.mapped env.dma) = env.blocks := by
  rw [rxPages, List.map_map, List.map_map]
  refine List.map_congr_left fun k _ => ?_
  exact congrArg (SgEntry.mk · RX_BUF_BLOCK) (BitVec.add_zero _)

theorem createRing_eq (env : RingEnv) :
    createRing env = transferCreate ringArgs env.mem env.descBus 0 env.blocks := by
  have hmapper : SgMapping.sgCreateMapper true rxBytes = some ⟨maxPages rxBytes, 0⟩ := rfl
  rw [createRing, hmapper, Option.bind_eq_bind, Option.bind_some, sgmKernelPages_rxBuffer,
    PagesAnswer.entries, Option.bind_eq_bind, Option.bind_some, rxPages_mapped]

/-- The terminated chain of the blocks. -/
theorem createRing_isChain (env : RingEnv) :
    ∃ x, createRing env = some x ∧ IsChain ringArgs x env.descBus 0 env.blocks := by
  have hne : env.blocks ≠ [] := List.ne_nil_of_length_pos (by rw [env.length_blocks]; decide)
  obtain ⟨e, rest, hblocks⟩ := List.exists_cons_of_ne_nil hne
  obtain ⟨x, hx, hchain⟩ := transferCreate_isChain (c := ringArgs) env.mem env.descBus 0 e rest
  rw [merge_forced rfl rfl, ← hblocks] at hchain
  exact ⟨x, by rw [createRing_eq, hblocks, hx], hchain⟩

/-! ## The chain closed to a ring -/

/-- What `cyclic_transfer_setup` makes of descriptor `k` of the chain. -/
def RingEnv.closeDesc (env : RingEnv) (k : ℕ) (d : XdmaDesc) : XdmaDesc :=
  let d := (xdmaDescSetSource d (env.resultBus + BitVec.ofNat 64 (resultSize * k))).withControlByte
    (XDMA_DESC_EOP ||| XDMA_DESC_COMPLETED)
  if k + 1 = RX_BUF_PAGES then xdmaDescLink d (some env.descBus) else d

theorem cyclicRing_eq {env : RingEnv} {x : BuiltTransfer} (hx : createRing env = some x)
    (hnum : x.descNum = RX_BUF_PAGES) (hbus : x.descBus = env.descBus) :
    ∃ y, cyclicRing env = some y ∧ y.descNum = RX_BUF_PAGES ∧ y.descBus = env.descBus ∧
      ∀ k < RX_BUF_PAGES, y.descVirt k = env.closeDesc k (x.descVirt k) := by
  have hmask : (XDMA_DESC_EOP ||| XDMA_DESC_COMPLETED) &&& ~~~LS_BYTE_MASK = 0 := by decide
  obtain ⟨t, bus, num, adj⟩ := x
  simp only at hnum hbus
  subst hnum hbus
  rw [cyclicRing, hx, Option.bind_eq_bind, Option.bind_some]
  simp only [transferSetAllControl, transferSetResultAddresses, setResultAddresses_eq,
    setAllControl_eq _ hmask, Option.bind_eq_bind, Option.bind_some]
  refine ⟨_, rfl, rfl, rfl, fun k hk => ?_⟩
  simp only [xdmaTransferCyclic, RingEnv.closeDesc]
  by_cases hlast : k + 1 = RX_BUF_PAGES
  · obtain rfl : k = RX_BUF_PAGES - 1 := by omega
    rw [Function.update_self, if_pos hlast]
    simp only [if_pos hk]
  · rw [Function.update_of_ne (by omega), if_neg hlast]
    simp only [if_pos hk]

section CloseDesc

variable (env : RingEnv) (k : ℕ) (d : XdmaDesc)

theorem controlByte_closeDesc :
    (env.closeDesc k d).controlByte = XDMA_DESC_EOP ||| XDMA_DESC_COMPLETED := by
  simp only [RingEnv.closeDesc]
  split
  · rw [controlByte_xdmaDescLink]
    exact controlByte_withControlByte _ _ (by decide)
  · exact controlByte_withControlByte _ _ (by decide)

theorem nextAddr_closeDesc :
    (env.closeDesc k d).nextAddr = if k + 1 = RX_BUF_PAGES then env.descBus else d.nextAddr := by
  simp only [RingEnv.closeDesc]
  split
  · exact pciDma_append _
  · rfl

theorem bytes_closeDesc : (env.closeDesc k d).bytes = d.bytes := by
  simp only [RingEnv.closeDesc]
  split <;> rfl

/-- The destination is the side the host is on. -/
theorem hostAddr_false : d.hostAddr false = d.dstAddrHi ++ d.dstAddrLo :=
  rfl

theorem hostAddr_closeDesc : (env.closeDesc k d).hostAddr false = d.hostAddr false := by
  simp only [RingEnv.closeDesc]
  split
  · rw [hostAddr_xdmaDescLink, hostAddr_false, hostAddr_false]
    rfl
  · rw [hostAddr_false, hostAddr_false]
    rfl

theorem epAddr_closeDesc :
    (env.closeDesc k d).epAddr false = env.resultBus + BitVec.ofNat 64 (resultSize * k) := by
  simp only [RingEnv.closeDesc]
  split
  · rw [epAddr_xdmaDescLink]
    exact pciDma_append (env.resultBus + BitVec.ofNat 64 (resultSize * k))
  · exact pciDma_append (env.resultBus + BitVec.ofNat 64 (resultSize * k))

end CloseDesc

/-- Each descriptor of the ring points to the one behind it, and the last to the first. -/
theorem nextAddr_ring {env : RingEnv} {x : BuiltTransfer}
    (h : IsChain ringArgs x env.descBus 0 env.blocks) {k : ℕ} (hk : k < RX_BUF_PAGES) :
    (env.closeDesc k (x.descVirt k)).nextAddr =
      env.descBus + BitVec.ofNat 64 (descSize * ((k + 1) % RX_BUF_PAGES)) := by
  have hnext := (h.link k (by rwa [env.length_blocks])).next
  rw [env.length_blocks] at hnext
  rw [nextAddr_closeDesc, hnext]
  by_cases hlast : k + 1 = RX_BUF_PAGES
  · rw [if_pos hlast, hlast, Nat.mod_self]
    exact (BitVec.add_zero _).symm
  · rw [if_neg hlast, if_neg hlast, Nat.mod_eq_of_lt (by omega)]

/-- A closed ring over the pages of `rx_buffer`. -/
structure IsRing (env : RingEnv) (x : BuiltTransfer) : Prop where
  descBus : x.descBus = env.descBus
  descNum : x.descNum = RX_BUF_PAGES
  visits : ∀ n, x.visits n = some ((List.range n).map (· % RX_BUF_PAGES))
  bytes : ∀ i < RX_BUF_PAGES, (x.descVirt i).bytes = RX_BUF_BLOCK
  host : ∀ i < RX_BUF_PAGES, x.hostBytes false i = Chain.cover (env.bus i) RX_BUF_BLOCK.toNat
  result : ∀ i < RX_BUF_PAGES,
    (x.descVirt i).epAddr false = env.resultBus + BitVec.ofNat 64 (resultSize * i)
  flags : ∀ i < RX_BUF_PAGES, ¬ (x.descVirt i).Has XDMA_DESC_STOPPED ∧
    (x.descVirt i).Has XDMA_DESC_EOP ∧ (x.descVirt i).Has XDMA_DESC_COMPLETED

/-- There is a ring for any pages. -/
theorem cyclicRing_isRing (env : RingEnv) : ∃ x, cyclicRing env = some x ∧ IsRing env x := by
  obtain ⟨x, hx, hchain⟩ := createRing_isChain env
  obtain ⟨y, hy, hnum, hbus, hdesc⟩ :=
    cyclicRing_eq hx (hchain.descNum.trans env.length_blocks) hchain.descBus
  have hflags (i : ℕ) (hi : i < RX_BUF_PAGES) : ¬ (y.descVirt i).Has XDMA_DESC_STOPPED ∧
      (y.descVirt i).Has XDMA_DESC_EOP ∧ (y.descVirt i).Has XDMA_DESC_COMPLETED := by
    rw [has_iff_controlByte _ (by decide), has_iff_controlByte _ (by decide),
      has_iff_controlByte _ (by decide), hdesc i hi, controlByte_closeDesc]
    decide
  have hblock (i : ℕ) (hi : i < RX_BUF_PAGES) : (x.descVirt i).bytes = RX_BUF_BLOCK ∧
      (x.descVirt i).hostAddr false = env.bus i := by
    have hlink := hchain.link i (by rwa [env.length_blocks])
    have hlt := hlink.lt
    have hget : env.blocks[i] = ⟨env.bus i, RX_BUF_BLOCK⟩ := by
      simp [RingEnv.blocks]
    have hbytes := hlink.bytes
    have hhost := hlink.host
    rw [hget] at hbytes hhost
    exact ⟨hbytes, hhost⟩
  refine ⟨y, hy, hbus, hnum, fun n => ?_, fun i hi => ?_, fun i hi => ?_, fun i hi => ?_, hflags⟩
  · rw [← hnum]
    refine visits_ring hbus (by rw [hnum]; decide) (by rw [hnum]; decide) (fun k hk => ?_)
      (fun k hk => (hflags k (hnum ▸ hk)).1) n
    rw [hnum] at hk ⊢
    rw [hdesc k hk, nextAddr_ring hchain hk]
  · rw [hdesc i hi, bytes_closeDesc, (hblock i hi).1]
  · rw [BuiltTransfer.hostBytes, hdesc i hi, hostAddr_closeDesc, bytes_closeDesc, (hblock i hi).1,
      (hblock i hi).2]
  · rw [hdesc i hi, epAddr_closeDesc]

theorem isRing_of_cyclicRing {env : RingEnv} {x : BuiltTransfer} (h : cyclicRing env = some x) :
    IsRing env x := by
  obtain ⟨y, hy, hring⟩ := cyclicRing_isRing env
  exact Option.some.inj (hy.symm.trans h) ▸ hring

/-- The ring of `cyclic_transfer_setup`, for all addresses of the pages of `rx_buffer` : an engine
that follows the next pointers visits the descriptors in order and begins anew behind the last, for
ever; descriptor `i` writes block `i` and has the address of result `i`, which lies in the result
buffer; and every descriptor ends a packet and completes, and none stops the engine. -/
theorem cyclic_layout (env : RingEnv) :
    ∃ x, cyclicRing env = some x ∧ x.descBus = env.descBus ∧ x.descNum = RX_BUF_PAGES ∧
      (∀ n, x.visits n = some ((List.range n).map (· % RX_BUF_PAGES))) ∧
      ∀ i < RX_BUF_PAGES, x.hostBytes false i = Chain.cover (env.bus i) RX_BUF_BLOCK.toNat ∧
        (x.descVirt i).epAddr false = env.resultBus + BitVec.ofNat 64 (resultSize * i) ∧
        resultSize * i + resultSize ≤ RX_RESULT_BUF_SIZE ∧
        ¬ (x.descVirt i).Has XDMA_DESC_STOPPED ∧ (x.descVirt i).Has XDMA_DESC_EOP ∧
        (x.descVirt i).Has XDMA_DESC_COMPLETED := by
  obtain ⟨x, hx, hring⟩ := cyclicRing_isRing env
  refine ⟨x, hx, hring.descBus, hring.descNum, hring.visits, fun i hi =>
    ⟨hring.host i hi, hring.result i hi, ?_, hring.flags i hi⟩⟩
  rw [RX_RESULT_BUF_SIZE, ← Nat.mul_succ, Nat.mul_comm]
  exact Nat.mul_le_mul_right _ hi

theorem adjoining_not_wraps : ¬ (0xffffc90000000000 : U64) + rxBytes < 0xffffc90000000000 := by
  decide

/-- Pages that adjoin each other, which a transfer of a user would merge. -/
def adjoiningPages : RingEnv where
  rxBuffer := 0xffffc90000000000
  vmallocToPage addr := some ((addr - 0xffffc90000000000).toNat / PAGE_SIZE)
  dma page := 0x10000000 + BitVec.ofNat 64 (PAGE_SIZE * page)
  mem _ := ⟨0, 0, 0, 0, 0, 0, 0, 0⟩
  descBus := 0x30000000
  resultBus := 0x40000000
  aligned := rfl
  not_wraps := adjoining_not_wraps
  found _ _ := rfl

theorem cyclic_layout_adjoining : ∃ x, cyclicRing adjoiningPages = some x ∧
    x.descNum = RX_BUF_PAGES ∧ x.visits 300 = some ((List.range 300).map (· % RX_BUF_PAGES)) := by
  obtain ⟨x, hx, -, hnum, hvisits, -⟩ := cyclic_layout adjoiningPages
  exact ⟨x, hx, hnum, hvisits 300⟩

end Wimi
