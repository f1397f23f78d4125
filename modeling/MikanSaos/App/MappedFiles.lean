import MikanSaos.App.AddressRegions
import MikanSaos.FileSystem.SharedFile
import MikanSaos.Paging.PageBytes

/-!
# MappedFiles — mapped files are read like the files

`MapFile` only takes a range of addresses.  The page fault of the first access to a page makes the page and has
`Load` fill it from the volume.  `fds` stands for `task.Files()`.
-/

namespace MikanSaos

open LinearAddress4Level Machine

variable {v : Volume} {fds : Nat → Option FileDescriptor} {t t' : AppTask} {d : FileDescriptor} {l : List Nat}
  {m m' : Machine} {r b e vaddr n a : Nat} {fd : Int} {fm : FileMapping} {rw : Bool}

namespace Volume

def fileOf (fds : Nat → Option FileDescriptor) (fd : Int) : Option FileDescriptor :=
  if fd < 0 then none else fds fd.toNat

/-- The store to `*file_size` is left out. -/
def mapFile (v : Volume) (fds : Nat → Option FileDescriptor) (t : AppTask) (fd : Int) : Except Nat Nat × AppTask :=
  match fileOf fds fd with
  | none => (.error EBADF, t)
  | some d =>
    let fileSize := v.fileSize d.fatEntry
    let vaddrEnd := t.fileMapEnd
    let vaddrBegin := sub64 vaddrEnd fileSize / 4096 * 4096
    (.ok vaddrBegin, { t with
      fileMapEnd := vaddrBegin, fileMaps := t.fileMaps ++ [⟨fd, vaddrBegin, vaddrEnd⟩] })

/-- There is no result when `Load` leaves the volume. -/
def preparePageCache (v : Volume) (cr3 : Nat) (d : FileDescriptor) (fm : FileMapping) (causalAddr : Nat)
    (m : Machine) : Option (Error × Machine) :=
  let pageVaddr := causalAddr - causalAddr % 4096
  let (err, m) := m.setupPageMaps cr3 pageVaddr 1
  if err ≠ .kSuccess then some (err, m)
  else
    let fileOffset := sub64 pageVaddr fm.vaddrBegin
    (d.load v 4096 fileOffset).map fun res =>
      (.kSuccess, m.storeBytes cr3 pageVaddr (fun k => res.1.getD k 0) res.1.length)

def handlePageFault (v : Volume) (fds : Nat → Option FileDescriptor) (t : AppTask) (present rw user : Bool)
    (causalAddr : Nat) (m : Machine) : Option (Error × Machine) :=
  if present ∧ rw ∧ user then some (m.copyOnePage t.cr3 causalAddr)
  else if present then some (.kAlreadyAllocated, m)
  else if t.dpagingBegin ≤ causalAddr ∧ causalAddr < t.dpagingEnd then
    some (m.setupPageMaps t.cr3 causalAddr 1)
  else
    match System.findFileMapping t.fileMaps causalAddr with
    | some fm => (fileOf fds fm.fd).bind fun d => v.preparePageCache t.cr3 d fm causalAddr m
    | none => some (.kIndexOutOfRange, m)

/-- The first access of the application to a page: the fault has to be served.  A page that is there does not
fault like this again. -/
def firstAccess (v : Volume) (fds : Nat → Option FileDescriptor) (t : AppTask) (vaddr : Nat) (rw : Bool)
    (m : Machine) : Option Machine :=
  match m.walk t.cr3 vaddr with
  | some _ => some m
  | none => (v.handlePageFault fds t false rw true vaddr m).bind fun res =>
    if res.1 = .kSuccess then some res.2 else none

/-- Addresses in the order of the accesses, and whether an access is a store. -/
def firstAccesses (v : Volume) (fds : Nat → Option FileDescriptor) (t : AppTask) : List (Nat × Bool) → Machine →
    Option Machine
  | [], m => some m
  | x :: rest, m => (v.firstAccess fds t x.1 x.2 m).bind (firstAccesses v fds t rest)

end Volume

/-! ## What a fault does to the pages -/

/-- The entries on the way to the page are open to the application, also for stores. -/
def OpenPath (m : Machine) (r a : Nat) : Prop :=
  ∀ q i, q ++ [i] <+: pagePath a → EntryOpen true (q ++ [i]) (m.entryAt r q i)

/-- The page of `vaddr` is there afterwards, in a frame that was free, and all else is as before. -/
structure Served (r vaddr : Nat) (m m' : Machine) : Prop where
  tree : PrivateTree m' r
  page : ∀ a, a / 4096 = vaddr / 4096 → OpenPath m' r a
  fresh : ∀ f, m'.follow r (pagePath vaddr) = some f → m.mm.getBit f = false
  paths : ∀ a, Upper a → OpenPath m r a → OpenPath m' r a
  entries : ∀ a, Upper a → a / 4096 ≠ vaddr / 4096 → m'.pageEntry r a = m.pageEntry r a
  loads : ∀ a, Upper a → a / 4096 ≠ vaddr / 4096 → m'.loadByte r a = m.loadByte r a
  bytes : ∀ f, m.mm.getBit f = true → m'.bytes f = m.bytes f
  /-- The lower half, and the page maps of others. -/
  others : ∀ t i, m.mm.getBit t = true → (∀ p, UpperPath (p ++ [i]) → m.follow r p ≠ some t) →
    m'.tables t i = m.tables t i

theorem Upper.page_le (h : Upper a) : a / 4096 * 4096 + 4096 * 1 ≤ 2 ^ 64 := by
  have hlt := h.2
  omega

theorem Upper.page (h : Upper a) : Upper (a - a % 4096) := by
  unfold Upper kUpperHalf at h ⊢
  omega

theorem Upper.of_page (h : Upper a) (hpage : vaddr / 4096 = a / 4096) : Upper vaddr := by
  unfold Upper kUpperHalf at h ⊢
  omega

theorem inPages_one : InPages a 1 vaddr ↔ vaddr / 4096 = a / 4096 := by
  unfold InPages
  omega

theorem PageTree.walk_page (h : PageTree m r) (hv : Upper vaddr) (hpage : a / 4096 = vaddr / 4096) :
    m.walk r a = none ↔ m.walk r vaddr = none := by
  rw [h.walk_eq_none hv, h.walk_eq_none (hv.of_page hpage), pagePath, part_eq hpage, pagePath]

theorem OpenPath.walk (h : OpenPath m r vaddr) (htree : PageTree m r) (hv : Upper vaddr) :
    ∃ e, m.walk r vaddr = some e ∧ e.user = true := by
  have hpage : EntryOpen true (pagePath vaddr) (m.pageEntry r vaddr) := h _ _ (List.prefix_refl _)
  have hwalk := htree.walk_open hv fun q i hq => h q i (hq.trans (List.prefix_append ..))
  rw [if_pos hpage.present] at hwalk
  exact ⟨_, hwalk, hpage.user⟩

/-- A page is made. -/
theorem PrivateTree.served (h : PrivateTree m r) (hv : Upper vaddr) (habsent : m.walk r vaddr = none)
    (hpage : a / 4096 = vaddr / 4096) (hrun : m.setupPageMaps r a 1 = (.kSuccess, m')) : Served r vaddr m m' := by
  have ha := hv.of_page hpage
  have hn := ha.page_le
  obtain ⟨hsets, htree'⟩ := h.toPageTree.setupPageMaps_tree ha hn hrun
  have hentry {v : Nat} (hv : Upper v) (hne : v / 4096 ≠ vaddr / 4096) : m'.pageEntry r v = m.pageEntry r v :=
    h.toPageTree.setupPageMaps_page ha hn hrun hv fun hin => hne ((inPages_one.mp hin).trans hpage)
  exact {
    tree := h.sets hsets
    page := fun v hv q i hq =>
      h.toPageTree.setupPageMaps_path ha hn hrun rfl (inPages_one.mpr (hv.trans hpage.symm)) hq
    fresh := fun f hf => (hsets.fresh _ f hv.upperPath le_rfl ((h.walk_eq_none hv).mp habsent) hf).1
    paths := fun v hv hopen q i hq =>
      (hsets.entries q i (UpperPath.of_initial hv.upperPath hq)).opened (hopen q i hq)
    entries := fun v => hentry
    loads := fun v hv hne => h.loadByte_same hsets hv (hentry hv hne)
    bytes := hsets.bytes
    others := hsets.others }

/-- Stores to the page matter for this page only. -/
theorem Served.stores (h : Served r vaddr m m') (hv : Upper vaddr) (src : Nat → UInt8) (hn : n ≤ 4096) :
    Served r vaddr m (m'.storeBytes r (vaddr - vaddr % 4096) src n) := by
  obtain ⟨bytes, heq⟩ := m'.storeBytes_bytes r (vaddr - vaddr % 4096) src n
  have hentry (q : List Nat) (i : Nat) :
      (m'.storeBytes r (vaddr - vaddr % 4096) src n).entryAt r q i = m'.entryAt r q i := by
    rw [heq]
    rfl
  have hbounds : kUpperHalf ≤ vaddr - vaddr % 4096 ∧ vaddr - vaddr % 4096 + n ≤ 2 ^ 64 := by
    unfold Upper kUpperHalf at hv
    unfold kUpperHalf
    omega
  exact {
    tree := heq ▸ h.tree.of_bytes bytes
    page := fun a ha q i hq => by
      rw [hentry]
      exact h.page a ha q i hq
    fresh := fun f hf => h.fresh f (by rwa [heq] at hf)
    paths := fun a ha hopen q i hq => by
      rw [hentry]
      exact h.paths a ha hopen q i hq
    entries := fun a ha hne => by
      rw [Machine.pageEntry, hentry]
      exact h.entries a ha hne
    loads := fun a ha hne => by
      rw [h.tree.loadByte_storeBytes src n hbounds.1 hbounds.2 ha, if_neg (by omega)]
      exact h.loads a ha hne
    bytes := fun f hf => by
      rw [m'.storeBytes_elsewhere r _ src n]
      · exact h.bytes f hf
      · -- the frame of the page was free
        rintro k hk e hwalk rfl
        have hlt := hv.2
        have hpage : (vaddr - vaddr % 4096 + k) % 2 ^ 64 / 4096 = vaddr / 4096 := by omega
        have hframe := h.tree.walk_addr (hv.of_page hpage)
        rw [hwalk, pagePath, part_eq hpage] at hframe
        rw [h.fresh e.addr hframe.symm] at hf
        cases hf
    others := fun t i ht hout => by
      rw [heq]
      exact h.others t i ht hout }

theorem FileDescriptor.load_length_le {len offset : Nat} {res : List UInt8 × FileDescriptor}
    (h : d.load v len offset = some res) : res.1.length ≤ len := by
  obtain ⟨g, -, hres⟩ := Option.bind_eq_some_iff.mp h
  obtain ⟨⟨bytes, g'⟩, hread, heq⟩ := Option.map_eq_some_iff.mp hres
  have hlength := Volume.read_length hread
  rw [← heq]
  dsimp only
  omega

namespace Volume

/-- The page is made, and what `Load` finds is stored to it. -/
theorem preparePageCache_success (hrun : v.preparePageCache r d fm vaddr m = some (.kSuccess, m')) :
    ∃ m₁ res, m.setupPageMaps r (vaddr - vaddr % 4096) 1 = (.kSuccess, m₁) ∧
      d.load v 4096 (sub64 (vaddr - vaddr % 4096) fm.vaddrBegin) = some res ∧
      m' = m₁.storeBytes r (vaddr - vaddr % 4096) (fun k => res.1.getD k 0) res.1.length := by
  unfold preparePageCache at hrun
  dsimp only at hrun
  generalize hsetup : m.setupPageMaps r (vaddr - vaddr % 4096) 1 = run at hrun
  obtain ⟨err, m₁⟩ := run
  dsimp only at hrun
  split at hrun
  · rename_i herr
    exact absurd (congrArg Prod.fst (Option.some.inj hrun)) herr
  · rename_i herr
    obtain ⟨res, hload, hres⟩ := Option.map_eq_some_iff.mp hrun
    exact ⟨m₁, res, by rw [not_not.mp herr], hload, (congrArg Prod.snd hres).symm⟩

theorem preparePageCache_served (h : PrivateTree m r) (hv : Upper vaddr) (habsent : m.walk r vaddr = none)
    (hrun : v.preparePageCache r d fm vaddr m = some (.kSuccess, m')) : Served r vaddr m m' := by
  obtain ⟨m₁, res, hsetup, hload, rfl⟩ := preparePageCache_success hrun
  exact (h.served hv habsent (by omega) hsetup).stores hv _ (FileDescriptor.load_length_le hload)

theorem handlePageFault_served (h : PrivateTree m t.cr3) (hv : Upper vaddr) (habsent : m.walk t.cr3 vaddr = none)
    (hrun : v.handlePageFault fds t false rw true vaddr m = some (.kSuccess, m')) : Served t.cr3 vaddr m m' := by
  unfold handlePageFault at hrun
  rw [if_neg (by simp), if_neg (by decide)] at hrun
  split at hrun
  · exact h.served hv habsent rfl (Option.some.inj hrun)
  · split at hrun
    · obtain ⟨d, -, hrun⟩ := Option.bind_eq_some_iff.mp hrun
      exact preparePageCache_served h hv habsent hrun
    · cases hrun

end Volume

/-! ## The pages of a mapped file -/

namespace Volume

/-- The chain of the file is whole and covers its size. -/
structure WholeFile (v : Volume) (d : FileDescriptor) (l : List Nat) : Prop where
  bytesPerCluster : 0 < v.bytesPerCluster
  fat : v.numFatEntries ≤ kMaxFatEntries
  chain : v.FileChain d.fatEntry l
  cover : v.fileSize d.fatEntry ≤ l.length * v.bytesPerCluster

theorem bytesAt_getD (v : Volume) (l : List Nat) (pos n k : Nat) :
    (v.bytesAt l pos n).getD k 0 = if k < n then v.contentOf l (pos + k) else 0 := by
  unfold bytesAt
  rw [List.getD_eq_getElem?_getD, List.getElem?_map]
  by_cases hk : k < n
  · rw [List.getElem?_range hk, if_pos hk]
    rfl
  · rw [List.getElem?_eq_none (by rwa [List.length_range, ← Nat.not_lt]), if_neg hk]
    rfl

/-- What `Load` finds for a page of the mapping from `b` on, which does not begin behind the end of the file. -/
theorem WholeFile.load_page (h : v.WholeFile d l) (hv : Upper vaddr) (hb : b % 4096 = 0) (hlo : b ≤ vaddr)
    (hhi : vaddr / 4096 * 4096 ≤ b + v.fileSize d.fatEntry) :
    d.load v 4096 (sub64 (vaddr - vaddr % 4096) b) =
      some (v.bytesAt l (vaddr - vaddr % 4096 - b)
        (min 4096 (v.fileSize d.fatEntry - (vaddr - vaddr % 4096 - b))), d) := by
  have hpage := hv.page
  rw [sub64_of_le (by omega) hpage.2]
  exact FileDescriptor.load_eq h.bytesPerCluster h.fat h.chain h.cover rfl (by omega) 4096

/-- The page of a mapped file holds its part of the file, and zeros behind its end. -/
theorem preparePageCache_reads (hfile : v.WholeFile d l) (h : PrivateTree m r) (hv : Upper vaddr)
    (hb : b % 4096 = 0) (hlo : b ≤ vaddr) (hhi : vaddr / 4096 * 4096 ≤ b + v.fileSize d.fatEntry)
    (hpage : a / 4096 = vaddr / 4096) (habsent : m.walk r vaddr = none) (hfm : fm.vaddrBegin = b)
    (hrun : v.preparePageCache r d fm vaddr m = some (.kSuccess, m')) :
    m'.loadByte r a = some ((v.fileBytes d.fatEntry l).getD (a - b) 0) := by
  obtain ⟨m₁, res, hsetup, hload, rfl⟩ := preparePageCache_success hrun
  have hav := hv.of_page hpage
  have hupper := hv.page
  have hend := hupper.page_le
  have hserved : Served r vaddr m m₁ := h.served hv habsent (by omega) hsetup
  obtain ⟨e, hwalk, -⟩ := (hserved.page a hpage).walk hserved.tree.toPageTree hav
  have hthere : m₁.walk r a ≠ none := by
    rw [hwalk]
    exact Option.some_ne_none e
  rw [hfm, hfile.load_page hv hb hlo hhi] at hload
  obtain rfl := Option.some.inj hload
  rw [hserved.tree.loadByte_storeBytes _ _ hupper.1 (by rw [bytesAt_length]; omega) hav, bytesAt_length, fileBytes]
  dsimp only
  rw [bytesAt_getD, bytesAt_getD]
  by_cases hin : a - b < v.fileSize d.fatEntry
  · -- the byte is among those that are stored
    rw [if_pos ⟨by omega, by omega, hthere⟩, if_pos (by omega), if_pos hin]
    congr 2
    omega
  · -- behind the end of the file the page is as it was made
    rw [if_neg (by omega), if_neg hin]
    exact h.loadByte_new (h.toPageTree.setupPageMaps_tree hupper hupper.page_le hsetup).1 hav
      ((h.toPageTree.walk_page hv hpage).mpr habsent) hthere

/-- The size of the whole pages of the file. -/
def mappedSize (v : Volume) (d : FileDescriptor) : Nat := (v.fileSize d.fatEntry + 4095) / 4096 * 4096

/-- The pages of the file, from `b` up to `e`, are mapped, and the accesses that are served are to the upper
half. -/
structure Mapping (v : Volume) (fds : Nat → Option FileDescriptor) (t : AppTask) (d : FileDescriptor) (b e : Nat) :
    Prop where
  found : ∀ a, b ≤ a → a < e → ∃ fm, System.findFileMapping t.fileMaps a = some fm ∧ fm.vaddrBegin = b ∧
    fileOf fds fm.fd = some d
  demand : ∀ a, b ≤ a → a < e → ¬ (t.dpagingBegin ≤ a ∧ a < t.dpagingEnd)
  aligned : b % 4096 = 0
  size : e = b + v.mappedSize d
  upper : ∀ a, t.dpagingBegin ≤ a ∧ a < t.dpagingEnd ∨ (System.findFileMapping t.fileMaps a).isSome → Upper a

theorem Mapping.upper_of_mem (h : v.Mapping fds t d b e) (hlo : b ≤ a) (hhi : a < e) : Upper a := by
  obtain ⟨fm, hfind, -⟩ := h.found a hlo hhi
  exact h.upper a (.inr (Option.isSome_of_eq_some hfind))

/-- The fault of a page of the file is one for its descriptor. -/
theorem Mapping.handlePageFault_eq (h : v.Mapping fds t d b e) (hlo : b ≤ vaddr) (hhi : vaddr < e) :
    ∃ fm, fm.vaddrBegin = b ∧ ∀ rw m,
      v.handlePageFault fds t false rw true vaddr m = v.preparePageCache t.cr3 d fm vaddr m := by
  obtain ⟨fm, hfind, hbegin, hfd⟩ := h.found vaddr hlo hhi
  refine ⟨fm, hbegin, fun rw m => ?_⟩
  unfold handlePageFault
  rw [if_neg (by simp), if_neg (by decide), if_neg (h.demand vaddr hlo hhi), hfind]
  dsimp only
  rw [hfd, Option.bind_some]

/-- A page that is there. -/
theorem firstAccess_there {e' : PageMapEntry} (hwalk : m.walk t.cr3 vaddr = some e')
    (hrun : v.firstAccess fds t vaddr rw m = some m') : m' = m := by
  unfold firstAccess at hrun
  rw [hwalk] at hrun
  exact (Option.some.inj hrun).symm

/-- The address is read as the byte of the file. -/
def Reads (v : Volume) (d : FileDescriptor) (l : List Nat) (b : Nat) (m : Machine) (r a : Nat) : Prop :=
  OpenPath m r a ∧ m.loadByte r a = some ((v.fileBytes d.fatEntry l).getD (a - b) 0)

/-- There is nothing yet, or what is read is the byte of the file. -/
def AbsentOrReads (v : Volume) (d : FileDescriptor) (l : List Nat) (b : Nat) (m : Machine) (r a : Nat) : Prop :=
  m.walk r a = none ∨ v.Reads d l b m r a

section

variable (h : v.Mapping fds t d b e) (htree : PrivateTree m t.cr3)
include h htree

/-- An access to a page that is not there is served, for an address of the upper half. -/
theorem Mapping.firstAccess_served (habsent : m.walk t.cr3 vaddr = none)
    (hrun : v.firstAccess fds t vaddr rw m = some m') :
    Upper vaddr ∧ v.handlePageFault fds t false rw true vaddr m = some (.kSuccess, m') ∧
      Served t.cr3 vaddr m m' := by
  unfold firstAccess at hrun
  rw [habsent] at hrun
  obtain ⟨⟨err, m₁⟩, hfault, hres⟩ := Option.bind_eq_some_iff.mp hrun
  dsimp only at hres
  split at hres
  · rename_i herr
    obtain rfl := Option.some.inj hres
    rw [herr] at hfault
    have hv : Upper vaddr := by
      refine h.upper vaddr ?_
      -- no other address is served
      by_contra hnone
      obtain ⟨hdemand, hfind⟩ := not_or.mp hnone
      rw [Option.not_isSome_iff_eq_none] at hfind
      unfold handlePageFault at hfault
      rw [if_neg (by simp), if_neg (by decide), if_neg hdemand, hfind] at hfault
      cases hfault
    exact ⟨hv, hfault, handlePageFault_served htree hv habsent hfault⟩
  · cases hres

/-- A page of the file gets its part of the file. -/
theorem Mapping.firstAccess_new (hfile : v.WholeFile d l) (hlo : b ≤ a) (hhi : a < e) (hpage : a / 4096 = vaddr / 4096)
    (habsent : m.walk t.cr3 vaddr = none) (hrun : v.firstAccess fds t vaddr rw m = some m') :
    v.Reads d l b m' t.cr3 a := by
  obtain ⟨hv, hfault, hserved⟩ := h.firstAccess_served htree habsent hrun
  have haligned := h.aligned
  have hsize := h.size
  unfold mappedSize at hsize
  -- the range is one of whole pages
  obtain ⟨fm, hbegin, heq⟩ := h.handlePageFault_eq (show b ≤ vaddr by omega) (by omega)
  rw [heq] at hfault
  exact ⟨hserved.page a hpage,
    preparePageCache_reads hfile htree hv haligned (by omega) (by omega) hpage habsent hbegin hfault⟩

/-- One access: the tree is kept, and what is read of the file, too. -/
theorem Mapping.firstAccess_reads (hfile : v.WholeFile d l) (hlo : b ≤ a) (hhi : a < e) (ha : Upper a)
    (hstate : v.AbsentOrReads d l b m t.cr3 a) (hrun : v.firstAccess fds t vaddr rw m = some m') :
    v.AbsentOrReads d l b m' t.cr3 a ∧
      (v.Reads d l b m t.cr3 a ∨ vaddr / 4096 = a / 4096 → v.Reads d l b m' t.cr3 a) := by
  cases hwalk : m.walk t.cr3 vaddr with
  | some e' =>
    -- the page is there, and nothing happens
    obtain rfl := firstAccess_there hwalk hrun
    refine ⟨hstate, fun hreads => hreads.elim id fun hpage => hstate.resolve_left fun habsent => ?_⟩
    rw [htree.toPageTree.walk_page (ha.of_page hpage) hpage.symm, hwalk] at habsent
    cases habsent
  | none =>
    by_cases hpage : a / 4096 = vaddr / 4096
    · -- its own page
      have hreads := h.firstAccess_new htree hfile hlo hhi hpage hwalk hrun
      exact ⟨.inr hreads, fun _ => hreads⟩
    · -- another page: what is absent stays absent, and what is read stays
      obtain ⟨-, -, hserved⟩ := h.firstAccess_served htree hwalk hrun
      have hkept (hreads : v.Reads d l b m t.cr3 a) : v.Reads d l b m' t.cr3 a :=
        ⟨hserved.paths a ha hreads.1, (hserved.loads a ha hpage).trans hreads.2⟩
      refine ⟨hstate.imp (fun habsent => ?_) hkept, fun hreads => hkept (hreads.resolve_right (Ne.symm hpage))⟩
      rw [hserved.tree.walk_eq_none ha, Machine.follow_pagePath, hserved.entries a ha hpage, ← Machine.follow_pagePath]
      exact (htree.walk_eq_none ha).mp habsent

theorem Mapping.firstAccess_tree (hrun : v.firstAccess fds t vaddr rw m = some m') : PrivateTree m' t.cr3 := by
  cases hwalk : m.walk t.cr3 vaddr with
  | some e' =>
    obtain rfl := firstAccess_there hwalk hrun
    exact htree
  | none => exact (h.firstAccess_served htree hwalk hrun).2.2.tree

end

/-! ## Any number of accesses, in any order -/

theorem Mapping.firstAccesses_tree (h : v.Mapping fds t d b e) {accesses : List (Nat × Bool)}
    (htree : PrivateTree m t.cr3) (hrun : v.firstAccesses fds t accesses m = some m') : PrivateTree m' t.cr3 := by
  induction accesses generalizing m with
  | nil => exact Option.some.inj hrun ▸ htree
  | cons x rest ih =>
    obtain ⟨m₁, hfirst, hrest⟩ := Option.bind_eq_some_iff.mp hrun
    exact ih (h.firstAccess_tree htree hfirst) hrest

theorem Mapping.firstAccesses_reads (h : v.Mapping fds t d b e) (hfile : v.WholeFile d l) (hlo : b ≤ a) (hhi : a < e)
    (ha : Upper a) {accesses : List (Nat × Bool)} (htree : PrivateTree m t.cr3)
    (hstate : v.AbsentOrReads d l b m t.cr3 a) (hrun : v.firstAccesses fds t accesses m = some m')
    (haccess : v.Reads d l b m t.cr3 a ∨ ∃ x ∈ accesses, x.1 / 4096 = a / 4096) : v.Reads d l b m' t.cr3 a := by
  induction accesses generalizing m with
  | nil =>
    obtain rfl := Option.some.inj hrun
    exact haccess.resolve_right (by simp)
  | cons x rest ih =>
    obtain ⟨m₁, hfirst, hrest⟩ := Option.bind_eq_some_iff.mp hrun
    obtain ⟨hstate₁, hreads₁⟩ := h.firstAccess_reads htree hfile hlo hhi ha hstate hfirst
    refine ih (h.firstAccess_tree htree hfirst) hstate₁ hrest ?_
    rcases haccess with hreads | ⟨y, hy, hpage⟩
    · exact .inl (hreads₁ (.inl hreads))
    · -- the page is read from its own access on
      rcases List.mem_cons.mp hy with rfl | hy
      · exact .inl (hreads₁ (.inr hpage))
      · exact .inr ⟨y, hy, hpage⟩

/-! ## `MapFile` -/

/-- There is room for the file below the last mapping, and all regions are in the upper half. -/
structure Room (v : Volume) (t : AppTask) (d : FileDescriptor) : Prop where
  aligned : t.fileMapEnd % 4096 = 0
  below : t.fileMapEnd < 2 ^ 64
  upper : kUpperHalf + v.mappedSize d ≤ t.fileMapEnd
  demand : AppTask.Apart (t.fileMapEnd - v.mappedSize d, t.fileMapEnd) (t.dpagingBegin, t.dpagingEnd)
  maps : ∀ fm ∈ t.fileMaps,
    AppTask.Apart (t.fileMapEnd - v.mappedSize d, t.fileMapEnd) (fm.vaddrBegin, fm.vaddrEnd)
  demandUpper : ∀ a, AppTask.Region.Contains (t.dpagingBegin, t.dpagingEnd) a → Upper a
  mapsUpper : ∀ fm ∈ t.fileMaps, ∀ a, AppTask.Region.Contains (fm.vaddrBegin, fm.vaddrEnd) a → Upper a

/-- As long as the calls fit, the regions of a task leave room. -/
theorem Room.of_layout (h : t.Layout) (hupper : kUpperHalf ≤ t.dpagingBegin)
    (hfits : t.dpagingEnd + v.mappedSize d ≤ t.fileMapEnd) : v.Room t d := by
  have hbegins := h.begins
  have hbelow : t.fileMapEnd < 2 ^ 64 := h.below.trans_lt (by decide)
  exact {
    aligned := h.aligned
    below := hbelow
    upper := by omega
    demand := fun a hin => by
      have hlo : t.fileMapEnd - v.mappedSize d ≤ a := hin.1.1
      have hhi : a < t.dpagingEnd := hin.2.2
      omega
    maps := fun fm hfm a hin => by
      have hmaps := (h.maps fm hfm).1
      have hhi : a < t.fileMapEnd := hin.1.2
      have hlo : fm.vaddrBegin ≤ a := hin.2.1
      omega
    demandUpper := fun a hin => by
      have hlo : t.dpagingBegin ≤ a := hin.1
      have hhi : a < t.dpagingEnd := hin.2
      exact ⟨by omega, by omega⟩
    mapsUpper := fun fm hfm a hin => by
      obtain ⟨hmap, hend, -⟩ := h.maps fm hfm
      have hlo : fm.vaddrBegin ≤ a := hin.1
      have hhi : a < fm.vaddrEnd := hin.2
      exact ⟨by omega, (hhi.trans_le hend).trans (by decide)⟩ }

theorem Room.begin_eq (h : v.Room t d) :
    sub64 t.fileMapEnd (v.fileSize d.fatEntry) / 4096 * 4096 = t.fileMapEnd - v.mappedSize d := by
  have haligned := h.aligned
  have hbelow := h.below
  have hupper := h.upper
  unfold mappedSize kUpperHalf at *
  rw [sub64_of_le (by omega) hbelow]
  omega

theorem findFileMapping_contains (h : System.findFileMapping t.fileMaps a = some fm) :
    fm ∈ t.fileMaps ∧ AppTask.Region.Contains (fm.vaddrBegin, fm.vaddrEnd) a := by
  have hcontains : fm.vaddrBegin ≤ a ∧ a < fm.vaddrEnd := of_decide_eq_true
    (List.find?_some (p := fun fm : FileMapping => decide (fm.vaddrBegin ≤ a ∧ a < fm.vaddrEnd)) h)
  exact ⟨List.mem_of_find?_eq_some h, hcontains⟩

/-- The new mapping is that of the file. -/
theorem Room.mapping (h : v.Room t d) (hfd : fileOf fds fd = some d) (hmap : v.mapFile fds t fd = (.ok b, t')) :
    t'.cr3 = t.cr3 ∧ b = t.fileMapEnd - v.mappedSize d ∧ v.Mapping fds t' d b t.fileMapEnd := by
  unfold mapFile at hmap
  rw [hfd] at hmap
  obtain ⟨hb, rfl⟩ := Prod.mk.inj hmap
  obtain rfl := Except.ok.inj hb
  rw [h.begin_eq]
  have hbelow := h.below
  have hupper := h.upper
  have haligned := h.aligned
  refine ⟨rfl, rfl, ?_⟩
  exact {
    found := fun a hlo hhi => by
      -- the older mappings come first, but none of them has the address
      have hnone : t.fileMaps.find? (fun m => m.vaddrBegin ≤ a ∧ a < m.vaddrEnd) = none := by
        rw [List.find?_eq_none]
        intro fm hfm hin
        have hin : fm.vaddrBegin ≤ a ∧ a < fm.vaddrEnd := of_decide_eq_true hin
        exact h.maps fm hfm a ⟨⟨hlo, hhi⟩, hin⟩
      refine ⟨⟨fd, t.fileMapEnd - v.mappedSize d, t.fileMapEnd⟩, ?_, rfl, hfd⟩
      rw [System.findFileMapping, List.find?_append, hnone, Option.none_or, List.find?_singleton,
        if_pos (decide_eq_true ⟨hlo, hhi⟩)]
    demand := fun a hlo hhi hin => h.demand a ⟨⟨hlo, hhi⟩, hin⟩
    aligned := by
      unfold mappedSize at hupper ⊢
      omega
    size := (Nat.sub_add_cancel (by omega)).symm
    upper := fun a hin => by
      rcases hin with hin | hfind
      · exact h.demandUpper a hin
      · obtain ⟨fm, hfind⟩ := Option.isSome_iff_exists.mp hfind
        obtain ⟨hmem, hcontains⟩ := findFileMapping_contains hfind
        rcases List.mem_append.mp hmem with hmem | hmem
        · exact h.mapsUpper fm hmem a hcontains
        · rw [List.mem_singleton.mp hmem] at hcontains
          have hhi : a < t.fileMapEnd := hcontains.2
          have hlo : t.fileMapEnd - v.mappedSize d ≤ a := hcontains.1
          exact ⟨by omega, by omega⟩ }

/-- The fault of a page of the file is served unless the frames run out. -/
theorem Mapping.handlePageFault_error (h : v.Mapping fds t d b e) (hfile : v.WholeFile d l) (hlo : b ≤ vaddr)
    (hhi : vaddr < e) (rw : Bool) (m : Machine) : (v.handlePageFault fds t false rw true vaddr m).map Prod.fst =
      some (m.setupPageMaps t.cr3 (vaddr - vaddr % 4096) 1).1 := by
  obtain ⟨fm, hbegin, heq⟩ := h.handlePageFault_eq hlo hhi
  have haligned := h.aligned
  have hsize := h.size
  have hv := h.upper_of_mem hlo hhi
  unfold mappedSize at hsize
  rw [heq, preparePageCache]
  generalize m.setupPageMaps t.cr3 (vaddr - vaddr % 4096) 1 = run
  dsimp only
  split
  · rfl
  · rename_i herr
    rw [hbegin, hfile.load_page hv haligned hlo (by omega), Option.map_some, Option.map_some, not_not.mp herr]

/-- **A mapped file is read like the file.**  After `MapFile` has returned `b`, and after any first accesses to
pages of the application, in any order, a page of the mapping that was accessed holds the bytes of the file
from the base on, and zeros from the end of the file to the end of the last page; and a fault changes no page
but its own. -/
theorem mapFile_reads {accesses : List (Nat × Bool)} (hfile : v.WholeFile d l) (hfd : fileOf fds fd = some d)
    (hroom : v.Room t d) (htree : PrivateTree m t.cr3) (hmap : v.mapFile fds t fd = (.ok b, t'))
    (hrun : v.firstAccesses fds t' accesses m = some m') :
    (∀ k, k < v.mappedSize d → m.walk t.cr3 (b + k) = none →
      (∃ x ∈ accesses, x.1 / 4096 = (b + k) / 4096) →
      (∃ e, m'.walk t.cr3 (b + k) = some e ∧ e.user = true) ∧
      m'.loadByte t.cr3 (b + k) =
        if k < v.fileSize d.fatEntry then (v.fileBytes d.fatEntry l)[k]? else some 0) ∧
    (∀ k rw, k < v.mappedSize d → (v.handlePageFault fds t' false rw true (b + k) m').map Prod.fst =
      some (m'.setupPageMaps t.cr3 (b + k - (b + k) % 4096) 1).1) ∧
    ∀ vaddr rw m'', m'.walk t.cr3 vaddr = none → v.firstAccess fds t' vaddr rw m' = some m'' →
      (∀ a, Upper a → a / 4096 ≠ vaddr / 4096 →
        m''.pageEntry t.cr3 a = m'.pageEntry t.cr3 a ∧ m''.loadByte t.cr3 a = m'.loadByte t.cr3 a) ∧
      (∀ f, m'.mm.getBit f = true → m''.bytes f = m'.bytes f) ∧
      ∀ f i, m'.mm.getBit f = true → (∀ p, UpperPath (p ++ [i]) → m'.follow t.cr3 p ≠ some f) →
        m''.tables f i = m'.tables f i := by
  obtain ⟨hcr3, -, hmapping⟩ := hroom.mapping hfd hmap
  have hsize := hmapping.size
  rw [← hcr3] at htree ⊢
  have htree' := hmapping.firstAccesses_tree htree hrun
  have hupper {k : Nat} (hk : k < v.mappedSize d) : Upper (b + k) :=
    hmapping.upper_of_mem (Nat.le_add_right ..) (by omega)
  refine ⟨fun k hk habsent haccess => ?_, fun k rw hk =>
    hmapping.handlePageFault_error hfile (Nat.le_add_right ..) (by omega) rw m', fun vaddr rw m'' habsent hfirst => ?_⟩
  · obtain ⟨hopen, hload⟩ := hmapping.firstAccesses_reads hfile (Nat.le_add_right ..) (by omega) (hupper hk)
      htree (.inl habsent) hrun (.inr haccess)
    refine ⟨hopen.walk htree'.toPageTree (hupper hk), hload.trans ?_⟩
    rw [Nat.add_sub_cancel_left, List.getD_eq_getElem?_getD]
    have hlength : (v.fileBytes d.fatEntry l).length = v.fileSize d.fatEntry := bytesAt_length ..
    split
    · rw [List.getElem?_eq_getElem (by omega), Option.getD_some]
    · rw [List.getElem?_eq_none (by omega), Option.getD_none]
  · obtain ⟨-, -, hserved⟩ := hmapping.firstAccess_served htree' habsent hfirst
    exact ⟨fun a ha hne => ⟨hserved.entries a ha hne, hserved.loads a ha hne⟩, hserved.bytes, hserved.others⟩

/-- A task of which nothing is mapped yet, with an open file. -/
def readerTask : AppTask where
  cr3 := 1
  fileMapEnd := kStackFrameAddr

def readerFiles (fd : Nat) : Option FileDescriptor := if fd = 0 then some (.new ⟨2, 0⟩) else none

theorem readerTask_room : twoClusterVolume.Room readerTask (.new ⟨2, 0⟩) where
  aligned := by decide
  below := by decide
  upper := by decide
  demand a hin := Nat.not_lt_zero a hin.2.2
  maps fm hfm := by cases hfm
  demandUpper a hin := absurd hin.2 (Nat.not_lt_zero a)
  mapsUpper fm hfm := by cases hfm

/-- The last byte of a file of 40 bytes, and the one behind it, after an access at the end of the page. -/
theorem mapFile_reads_two_clusters : ∃ m', twoClusterVolume.firstAccesses readerFiles
      (twoClusterVolume.mapFile readerFiles readerTask 0).2 [(kStackFrameAddr - 1, false)] emptyRoot = some m' ∧
    m'.loadByte 1 (kStackFrameAddr - 4096 + 39) = (twoClusterVolume.fileBytes ⟨2, 0⟩ [3, 5])[39]? ∧
    m'.loadByte 1 (kStackFrameAddr - 4096 + 40) = some 0 := by
  have hsome : (twoClusterVolume.firstAccesses readerFiles (twoClusterVolume.mapFile readerFiles readerTask 0).2
      [(kStackFrameAddr - 1, false)] emptyRoot).isSome = true := by decide +kernel
  obtain ⟨m', hrun⟩ := Option.isSome_iff_exists.mp hsome
  have hmap : twoClusterVolume.mapFile readerFiles readerTask 0 =
      (.ok (kStackFrameAddr - 4096), (twoClusterVolume.mapFile readerFiles readerTask 0).2) :=
    Prod.ext (congrArg Except.ok (by decide)) rfl
  have hreads := (mapFile_reads ⟨by decide, by decide, twoClusterVolume_chain, by decide⟩ rfl readerTask_room
    (.of_empty (by decide) (fun _ _ _ => rfl) (by decide)) hmap hrun).1
  have h39 := (hreads 39 (by decide) rfl ⟨_, List.mem_singleton_self _, rfl⟩).2
  have h40 := (hreads 40 (by decide) rfl ⟨_, List.mem_singleton_self _, rfl⟩).2
  exact ⟨m', hrun, h39, h40⟩

/-! ## Faults of the whole system -/

theorem bytesAt_take (v : Volume) (l : List Nat) (pos n k : Nat) :
    (v.bytesAt l pos n).take k = v.bytesAt l pos (min k n) := by
  unfold bytesAt
  rw [← List.map_take, List.take_range]

theorem fileBytes_drop (h : n ≤ v.fileSize d.fatEntry) :
    (v.fileBytes d.fatEntry l).drop n = v.bytesAt l n (v.fileSize d.fatEntry - n) := by
  have hadd := v.bytesAt_add l 0 n (v.fileSize d.fatEntry - n)
  rw [Nat.add_sub_cancel' h, Nat.zero_add] at hadd
  rw [fileBytes, hadd]
  exact List.drop_left' (bytesAt_length ..)

/-- Where the file of a task is that of the volume, the faults of the two models are the same. -/
theorem preparePageCache_system (s : System) {task : Nat} (hfile : v.WholeFile d l)
    (hcontent : (s.tasks task).file fm.fd = some (v.fileBytes d.fatEntry l)) (hv : Upper vaddr)
    (haligned : fm.vaddrBegin % 4096 = 0) (hlo : fm.vaddrBegin ≤ vaddr)
    (hhi : vaddr / 4096 * 4096 ≤ fm.vaddrBegin + v.fileSize d.fatEntry) :
    v.preparePageCache (s.tasks task).cr3 d fm vaddr s.machine =
      some ((s.preparePageCache task vaddr fm).1, (s.preparePageCache task vaddr fm).2.machine) := by
  have hpage := hv.page
  have hoffset : sub64 (vaddr - vaddr % 4096) fm.vaddrBegin = vaddr - vaddr % 4096 - fm.vaddrBegin :=
    sub64_of_le (by omega) hpage.2
  have hload := hfile.load_page hv haligned hlo hhi
  unfold preparePageCache System.preparePageCache
  dsimp only
  rw [hcontent, Option.getD_some, hload, hoffset, fileBytes_drop (by omega), bytesAt_take]
  generalize s.machine.setupPageMaps (s.tasks task).cr3 (vaddr - vaddr % 4096) 1 = run
  obtain ⟨err, m₁⟩ := run
  dsimp only
  split
  · rfl
  · rfl

end Volume

end MikanSaos
