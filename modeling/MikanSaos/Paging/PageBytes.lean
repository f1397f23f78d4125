import MikanSaos.Paging.MappedRange

/-!
# PageBytes — reads and writes by way of a page map

In a `PrivateTree` no frame belongs to two pages of the upper half, so that a store to one address is seen at
this address only.  New pages are read as zero.
-/

namespace MikanSaos

open LinearAddress4Level Machine

variable {m m' : Machine} {r lo hi n v : Nat} {w : Bool} {p q : List Nat}

/-- The pages, too, are in allocated frames, and no two of them in the same one. -/
structure PrivateTree (m : Machine) (r : Nat) : Prop extends PageTree m r where
  framesApart : ∀ p q f, UpperPath p → UpperPath q → m.follow r p = some f → m.follow r q = some f → p = q
  framesAllocated : ∀ p f, UpperPath p → m.follow r p = some f → m.mm.getBit f = true

theorem PrivateTree.of_empty (hroot : m.mm.getBit r = true) (hempty : ∀ i, 256 ≤ i → i < 512 → m.tables r i = {})
    (hrange : m.mm.rangeEnd ≤ 2 ^ 40) : PrivateTree m r where
  toPageTree := .of_empty hroot hempty hrange
  framesApart p q f hp hq hpf hqf := by
    have hnil {p : List Nat} (hp : UpperPath p) (hpf : m.follow r p = some f) : p = [] := by
      by_contra hne
      rw [Machine.follow_empty hempty hp hne] at hpf
      cases hpf
    rw [hnil hp hpf, hnil hq hqf]
  framesAllocated p f hp hpf := by
    by_cases hne : p = []
    · subst hne
      exact Option.some.inj hpf ▸ hroot
    · rw [Machine.follow_empty hempty hp hne] at hpf
      cases hpf

theorem PrivateTree.sets (h : PrivateTree m r) (hsets : Sets r lo hi w m m') : PrivateTree m' r where
  toPageTree := h.toPageTree.sets hsets
  framesApart _ _ _ hp hq := hsets.apart le_rfl (fun p f hp _ => h.framesAllocated p f hp)
    (fun p q f hp hq _ _ => h.framesApart p q f hp hq) hp hq hp.1 hq.1
  framesAllocated _ _ hp := hsets.allocated le_rfl (fun p f hp _ => h.framesAllocated p f hp) hp hp.1

/-- Bytes do not matter. -/
theorem PrivateTree.of_bytes (h : PrivateTree m r) (bytes : Nat → Nat → UInt8) :
    PrivateTree { m with bytes := bytes } r :=
  ⟨⟨h.apart, h.allocated, h.plain, h.range⟩, h.framesApart, h.framesAllocated⟩

/-! ## Loads -/

theorem PageTree.loadByte_eq (h : PageTree m r) (hv : Upper v) :
    m.loadByte r v = (m.follow r (pagePath v)).map fun f => m.bytes f (part v 0) := by
  rw [← h.walk_addr hv, Option.map_map]
  rfl

theorem PageTree.walk_eq_none (h : PageTree m r) (hv : Upper v) :
    m.walk r v = none ↔ m.follow r (pagePath v) = none := by
  rw [← h.walk_addr hv, Option.map_eq_none_iff]

/-- A page that was there is read as before. -/
theorem PrivateTree.loadByte_kept (h : PrivateTree m r) (hsets : Sets r lo hi w m m') (hv : Upper v)
    (hthere : m.walk r v ≠ none) : m'.loadByte r v = m.loadByte r v := by
  rw [Ne, h.walk_eq_none hv] at hthere
  obtain ⟨f, hf⟩ := Option.ne_none_iff_exists'.mp hthere
  have hkept : m'.follow r (pagePath v) = some f := hsets.kept _ f hv.upperPath le_rfl hf
  have hbytes := hsets.bytes f (h.framesAllocated _ f hv.upperPath hf)
  rw [(h.sets hsets).loadByte_eq hv, h.loadByte_eq hv, hf, hkept, Option.map_some, Option.map_some, hbytes]

/-- A page that is new is empty. -/
theorem PrivateTree.loadByte_new (h : PrivateTree m r) (hsets : Sets r lo hi w m m') (hv : Upper v)
    (habsent : m.walk r v = none) (hthere : m'.walk r v ≠ none) : m'.loadByte r v = some 0 := by
  have h' := h.sets hsets
  rw [h.walk_eq_none hv] at habsent
  rw [Ne, h'.walk_eq_none hv] at hthere
  obtain ⟨f, hf⟩ := Option.ne_none_iff_exists'.mp hthere
  rw [h'.loadByte_eq hv, hf, Option.map_some, (hsets.fresh _ f hv.upperPath le_rfl habsent hf).2.2]

/-- A page whose entry stays is read as before, also if it is not there. -/
theorem PrivateTree.loadByte_same (h : PrivateTree m r) (hsets : Sets r lo hi w m m') (hv : Upper v)
    (hsame : m'.pageEntry r v = m.pageEntry r v) : m'.loadByte r v = m.loadByte r v := by
  by_cases hthere : m.walk r v = none
  · have habsent : m'.walk r v = none := by
      rw [(h.sets hsets).walk_eq_none hv, Machine.follow_pagePath, hsame, ← Machine.follow_pagePath]
      exact (h.walk_eq_none hv).mp hthere
    rw [Machine.loadByte, Machine.loadByte, hthere, habsent]
    rfl
  · exact h.loadByte_kept hsets hv hthere

/-! ## Stores -/

theorem Upper.eq_of_pagePath {v' : Nat} (hv : Upper v) (hv' : Upper v') (hpath : pagePath v = pagePath v')
    (hoffset : part v 0 = part v' 0) : v = v' := by
  have hpage := hv.pageOf_add
  have hpage' := hv'.pageOf_add
  have hnumber : pageOf v = pageOf v' := by
    rw [← pageNumber_tablePath v, ← pageNumber_tablePath v']
    exact congrArg pageNumber hpath
  simp only [part] at hoffset
  omega

theorem PrivateTree.loadByte_storeByte (h : PrivateTree m r) {v' : Nat} (hv : Upper v) (hv' : Upper v')
    (byte : UInt8) : (m.storeByte r v' byte).loadByte r v =
      if v = v' ∧ m.walk r v ≠ none then some byte else m.loadByte r v := by
  unfold storeByte
  cases hwalk' : m.walk r v' with
  | none =>
    rw [if_neg]
    rintro ⟨rfl, hthere⟩
    exact hthere hwalk'
  | some e' =>
    show (m.walk r v).map (fun e => Function.update m.bytes e'.addr _ e.addr (part v 0)) = _
    cases hwalk : m.walk r v with
    | none =>
      rw [if_neg fun hand => hand.2 rfl, Machine.loadByte, hwalk]
      rfl
    | some e =>
      -- the frames are the ends of the two paths
      have hframe := h.walk_addr hv
      have hframe' := h.walk_addr hv'
      rw [hwalk, Option.map_some] at hframe
      rw [hwalk', Option.map_some] at hframe'
      rw [Machine.loadByte, hwalk, Option.map_some, Option.map_some]
      by_cases hsame : e.addr = e'.addr
      · -- two addresses of one page
        have hpath : pagePath v = pagePath v' :=
          h.framesApart _ _ _ hv.upperPath hv'.upperPath hframe.symm (hsame ▸ hframe'.symm)
        rw [hsame, Function.update_self]
        by_cases hoffset : part v 0 = part v' 0
        · rw [hoffset, Function.update_self, if_pos ⟨hv.eq_of_pagePath hv' hpath hoffset, Option.some_ne_none _⟩]
        · rw [Function.update_of_ne hoffset, if_neg]
          rintro ⟨rfl, -⟩
          exact hoffset rfl
      · rw [Function.update_of_ne hsame, if_neg]
        rintro ⟨rfl, -⟩
        rw [hwalk] at hwalk'
        exact hsame (congrArg PageMapEntry.addr (Option.some.inj hwalk'))

/-- A copy to the upper half. -/
theorem PrivateTree.loadByte_storeBytes (h : PrivateTree m r) {dst : Nat} (src : Nat → UInt8) (n : Nat)
    (hlo : kUpperHalf ≤ dst) (hhi : dst + n ≤ 2 ^ 64) (hv : Upper v) :
    (m.storeBytes r dst src n).loadByte r v =
      if dst ≤ v ∧ v < dst + n ∧ m.walk r v ≠ none then some (src (v - dst)) else m.loadByte r v := by
  induction n with
  | zero => rw [if_neg (by omega), Machine.storeBytes]
  | succ n ih =>
    obtain ⟨bytes, heq⟩ := m.storeBytes_bytes r dst src n
    have hdst : Upper (dst + n) := ⟨by omega, by omega⟩
    have hmod : (dst + n) % 2 ^ 64 = dst + n := Nat.mod_eq_of_lt hdst.2
    have hwalk : (m.storeBytes r dst src n).walk r v = m.walk r v := by
      rw [heq]
      rfl
    rw [Machine.storeBytes, hmod, heq, (h.of_bytes bytes).loadByte_storeByte hv hdst, ← heq, ih (by omega), hwalk]
    by_cases hthere : m.walk r v ≠ none
    · -- the last byte, or one of those before
      by_cases hlast : v = dst + n
      · rw [if_pos ⟨hlast, hthere⟩, if_pos ⟨by omega, by omega, hthere⟩, hlast, Nat.add_sub_cancel_left]
      · rw [if_neg fun hand => hlast hand.1]
        exact if_congr ⟨fun hand => ⟨hand.1, by omega, hthere⟩, fun hand => ⟨hand.1, by omega, hthere⟩⟩ rfl rfl
    · rw [if_neg fun hand => hthere hand.2, if_neg fun hand => hthere hand.2.2, if_neg fun hand => hthere hand.2.2]

/-- Frames that the stores do not go to stay as they are. -/
theorem Machine.storeBytes_elsewhere (m : Machine) (r dst : Nat) (src : Nat → UInt8) (n : Nat) {f : Nat}
    (hout : ∀ k < n, ∀ e, m.walk r ((dst + k) % 2 ^ 64) = some e → e.addr ≠ f) :
    (m.storeBytes r dst src n).bytes f = m.bytes f := by
  induction n with
  | zero => rfl
  | succ n ih =>
    obtain ⟨bytes, heq⟩ := m.storeBytes_bytes r dst src n
    have hwalk : (m.storeBytes r dst src n).walk r ((dst + n) % 2 ^ 64) = m.walk r ((dst + n) % 2 ^ 64) := by
      rw [heq]
      rfl
    rw [storeBytes, storeByte, hwalk, ← ih fun k hk => hout k (Nat.lt_succ_of_lt hk)]
    cases hlast : m.walk r ((dst + n) % 2 ^ 64) with
    | none => rfl
    | some e => exact Function.update_of_ne (hout n (Nat.lt_succ_self n) e hlast).symm ..

end MikanSaos
