import ThymioDeviceManager.Library.Segments
import ThymioDeviceManager.Manager.HexFile

/-! # The pages of an image

Pages are compared with chunks address by address: `pageByte` is the byte that the pages have
at an address, with 0 for a page that is not there. A round of the loop for a chunk changes
the bytes that it copies and adds at most the page that it copies them to.
-/

namespace ThymioDeviceManager.Correctness

open Manager.HexFile Library Segment

namespace FirmwarePages

/-! ## The memory of the pages -/

def pageByte (pages : PageMap) (a : Nat) : UInt8 :=
  ((pages.find? (a / pageSize)).bind fun page => page[a % pageSize]?).getD 0

/-- The page is there. -/
def HasPage (pages : PageMap) (p : Nat) : Prop := (OrderedMap.find? pages p).isSome

/-- The pages are in order and of the right size. -/
structure WellSized (pages : PageMap) : Prop where
  ordered : OrderedMap.Ordered pages
  length : ∀ p page, OrderedMap.find? pages p = some page → page.length = pageSize

theorem pageSize_pos : 0 < pageSize := by decide

/-- A copy within a page, as a change of the bytes at its addresses. -/
theorem getElem?_copyData {data page : List UInt8} {address k amount byteIndex : Nat} {pageIndex : Nat}
    (haddress : address + k = pageSize * pageIndex + byteIndex) (hpage : page.length = pageSize)
    (hroom : byteIndex + amount ≤ pageSize) (hdata : k + amount ≤ data.length) (i : Nat) :
    (copyData data k amount byteIndex page)[i]? =
      if address + k ≤ pageSize * pageIndex + i ∧ pageSize * pageIndex + i < address + k + amount then
        data[pageSize * pageIndex + i - address]?
      else page[i]? := by
  have hlength : ((data.drop k).take amount).length = amount := by
    rw [List.length_take, List.length_drop]
    omega
  rw [copyData, Layout.getElem?_overwrite (by omega), hlength]
  by_cases hinside : byteIndex ≤ i ∧ i < byteIndex + amount
  · rw [if_pos hinside, if_pos (by omega), List.getElem?_take, if_pos (by omega), List.getElem?_drop]
    congr 1
    omega
  · rw [if_neg hinside, if_neg (by omega)]

/-! ## One round -/

section Round

variable (address : Nat) (data : List UInt8) (k : Nat) (pages : PageMap)

/-- How many bytes a round copies. -/
def amountToCopy : Nat :=
  min (pageSize - (address + k) % 2 ^ 32 % pageSize) (data.length % 2 ^ 32 - k)

/-- The pages with the one that is copied to. -/
def withPage (p : Nat) : PageMap :=
  if (pages.find? p).isSome then pages else pages.insert p (List.replicate pageSize 0)

/-- The pages after a round. -/
def copyRound : PageMap :=
  let pageIndex := (address + k) % 2 ^ 32 / pageSize
  (withPage pages pageIndex).modify pageIndex
    (copyData data k (amountToCopy address data k) ((address + k) % 2 ^ 32 % pageSize))

theorem copyChunk_eq :
    copyChunk address data k pages =
      if k + amountToCopy address data k < data.length % 2 ^ 32 then
        copyChunk address data (k + amountToCopy address data k) (copyRound address data k pages)
      else copyRound address data k pages := by
  rw [copyChunk]
  rfl

variable {address data k pages}

theorem WellSized.withPage (h : WellSized pages) (p : Nat) : WellSized (withPage pages p) := by
  unfold FirmwarePages.withPage
  split_ifs with hp
  · exact h
  · refine ⟨h.ordered.insert _ _, fun q page hq => ?_⟩
    rw [OrderedMap.find?_insert] at hq
    split_ifs at hq with hpq
    · cases hq
      exact List.length_replicate
    · exact h.length q page hq

theorem hasPage_withPage (p q : Nat) : HasPage (withPage pages p) q ↔ q = p ∨ HasPage pages q := by
  unfold withPage HasPage
  split_ifs with hp
  · constructor
    · exact Or.inr
    · rintro (rfl | hq)
      · exact hp
      · exact hq
  · rw [OrderedMap.find?_insert]
    by_cases hpq : p = q
    · simp [hpq]
    · rw [if_neg hpq, or_iff_right fun h => hpq h.symm]

theorem pageByte_withPage (p a : Nat) : pageByte (withPage pages p) a = pageByte pages a := by
  unfold pageByte withPage
  split_ifs with hp
  · rfl
  · rw [OrderedMap.find?_insert]
    split_ifs with hpa
    · rw [← hpa, Option.not_isSome_iff_eq_none.mp hp]
      have hlt : a % pageSize < pageSize := Nat.mod_lt _ pageSize_pos
      simp [hlt]
    · rfl

section Spec

variable (hfits : address + data.length < 2 ^ 32) (hk : k < data.length)

include hfits hk

theorem round_facts : address + k = pageSize * ((address + k) / pageSize) + (address + k) % pageSize ∧
    (address + k) % 2 ^ 32 = address + k ∧ data.length % 2 ^ 32 = data.length ∧
    (address + k) % pageSize + amountToCopy address data k ≤ pageSize ∧
    k + amountToCopy address data k ≤ data.length ∧ 0 < amountToCopy address data k := by
  have hdiv := Nat.div_add_mod (address + k) pageSize
  have hmod : (address + k) % pageSize < pageSize := Nat.mod_lt _ pageSize_pos
  have haddress : (address + k) % 2 ^ 32 = address + k := Nat.mod_eq_of_lt (by omega)
  have hsize : data.length % 2 ^ 32 = data.length := Nat.mod_eq_of_lt (by omega)
  unfold amountToCopy
  rw [haddress, hsize]
  omega

/-- The addresses of a round are on one page. -/
theorem div_eq_of_round {a : Nat} (hle : address + k ≤ a)
    (hlast : a < address + k + amountToCopy address data k) :
    a / pageSize = (address + k) / pageSize := by
  obtain ⟨hsplit, -, -, hroom, -, -⟩ := round_facts hfits hk
  have hcomm := Nat.mul_comm pageSize ((address + k) / pageSize)
  rw [Nat.div_eq_iff pageSize_pos]
  omega

theorem WellSized.copyRound (h : WellSized pages) : WellSized (copyRound address data k pages) := by
  obtain ⟨-, haddress, -, hroom, hdata, -⟩ := round_facts hfits hk
  have hwith := h.withPage ((address + k) % 2 ^ 32 / pageSize)
  refine ⟨hwith.ordered.modify _ _, fun p page hp => ?_⟩
  rw [FirmwarePages.copyRound, OrderedMap.find?_modify] at hp
  split_ifs at hp with hpage
  · obtain ⟨page', hpage', rfl⟩ := Option.map_eq_some_iff.mp hp
    have hlength := hwith.length p page' hpage'
    rw [copyData, Layout.length_overwrite, hlength]
    rw [List.length_take, List.length_drop, hlength, haddress]
    omega
  · exact hwith.length p page hp

theorem hasPage_copyRound (p : Nat) :
    HasPage (copyRound address data k pages) p ↔ p = (address + k) / pageSize ∨ HasPage pages p := by
  obtain ⟨-, haddress, -⟩ := round_facts hfits hk
  have hmodify : ∀ (m : PageMap) (q : Nat) (f : List UInt8 → List UInt8),
      HasPage (OrderedMap.modify m q f) p ↔ HasPage m p := by
    intro m q f
    unfold HasPage
    rw [OrderedMap.find?_modify]
    split_ifs
    · rw [Option.isSome_map]
    · exact Iff.rfl
  unfold copyRound
  rw [hmodify, hasPage_withPage, haddress]

theorem pageByte_copyRound (h : WellSized pages) (a : Nat) :
    pageByte (copyRound address data k pages) a =
      if address + k ≤ a ∧ a < address + k + amountToCopy address data k then
        (data[a - address]?).getD 0
      else pageByte pages a := by
  obtain ⟨hsplit, haddress, -, hroom, hdata, -⟩ := round_facts hfits hk
  have hwith := h.withPage ((address + k) / pageSize)
  have ha : a = pageSize * (a / pageSize) + a % pageSize := (Nat.div_add_mod a pageSize).symm
  have hlt : a % pageSize < pageSize := Nat.mod_lt _ pageSize_pos
  have hsame : pageByte (withPage pages ((address + k) / pageSize)) a = pageByte pages a :=
    pageByte_withPage _ a
  rw [← hsame]
  unfold copyRound pageByte
  rw [haddress, OrderedMap.find?_modify]
  by_cases hpage : (address + k) / pageSize = a / pageSize
  · rw [if_pos hpage]
    have hsome : HasPage (withPage pages ((address + k) / pageSize)) (a / pageSize) :=
      (hasPage_withPage _ _).mpr (Or.inl hpage.symm)
    obtain ⟨page, hfind⟩ := Option.isSome_iff_exists.mp hsome
    rw [hfind, Option.map_some, Option.bind_some, Option.bind_some,
      getElem?_copyData hsplit (hwith.length _ _ hfind) hroom hdata, hpage, ← ha]
    split_ifs <;> rfl
  · rw [if_neg hpage, if_neg]
    rintro ⟨hle, hlast⟩
    exact hpage (div_eq_of_round hfits hk hle hlast).symm

end Spec

end Round

/-! ## All rounds of a chunk -/

section Chunk

variable {address k : Nat} {data : List UInt8} {pages : PageMap}

theorem WellSized.copyChunk (hfits : address + data.length < 2 ^ 32) (turns : Nat) :
    ∀ {k : Nat} {pages : PageMap}, k < data.length → data.length - k ≤ turns → WellSized pages →
      WellSized (copyChunk address data k pages) := by
  induction turns with
  | zero =>
    intro k pages hk hturns
    omega
  | succ turns ih =>
    intro k pages hk hturns h
    obtain ⟨-, -, hsize, -, -, hpositive⟩ := round_facts hfits hk
    have hround := h.copyRound hfits hk
    rw [copyChunk_eq, hsize]
    split_ifs with hmore
    · exact ih hmore (by omega) hround
    · exact hround

/-- The chunk's pages are there, and those that were there before. -/
theorem hasPage_copyChunk (hfits : address + data.length < 2 ^ 32) (p turns : Nat) :
    ∀ {k : Nat} {pages : PageMap}, k < data.length → data.length - k ≤ turns →
      (HasPage (copyChunk address data k pages) p ↔
        (∃ a, a / pageSize = p ∧ address + k ≤ a ∧ a < address + data.length) ∨ HasPage pages p) := by
  induction turns with
  | zero =>
    intro k pages hk hturns
    omega
  | succ turns ih =>
    intro k pages hk hturns
    obtain ⟨-, -, hsize, -, hdata, hpositive⟩ := round_facts hfits hk
    rw [copyChunk_eq, hsize]
    have hfirst : ∀ a, address + k ≤ a → a < address + k + amountToCopy address data k →
        a / pageSize = (address + k) / pageSize := fun a => div_eq_of_round hfits hk
    split_ifs with hmore
    · rw [ih hmore (by omega), hasPage_copyRound hfits hk, ← or_assoc]
      refine or_congr_left ⟨?_, ?_⟩
      · rintro (⟨a, ha, hle, hlt⟩ | hp)
        · exact ⟨a, ha, by omega, hlt⟩
        · exact ⟨address + k, hp.symm, Nat.le_refl _, by omega⟩
      · rintro ⟨a, ha, hle, hlt⟩
        by_cases hround : a < address + k + amountToCopy address data k
        · exact Or.inr (ha.symm.trans (hfirst a hle hround))
        · exact Or.inl ⟨a, ha, by omega, hlt⟩
    · rw [hasPage_copyRound hfits hk]
      refine or_congr_left ⟨fun hp => ⟨address + k, hp.symm, Nat.le_refl _, by omega⟩, ?_⟩
      rintro ⟨a, ha, hle, hlt⟩
      exact ha.symm.trans (hfirst a hle (by omega))

/-- The pages have the chunk's bytes at its addresses. -/
theorem pageByte_copyChunk (hfits : address + data.length < 2 ^ 32) (a turns : Nat) :
    ∀ {k : Nat} {pages : PageMap}, k < data.length → data.length - k ≤ turns → WellSized pages →
      pageByte (copyChunk address data k pages) a =
        if address + k ≤ a ∧ a < address + data.length then (data[a - address]?).getD 0
        else pageByte pages a := by
  induction turns with
  | zero =>
    intro k pages hk hturns
    omega
  | succ turns ih =>
    intro k pages hk hturns h
    obtain ⟨-, -, hsize, -, hdata, hpositive⟩ := round_facts hfits hk
    have hround := pageByte_copyRound hfits hk h a
    rw [copyChunk_eq, hsize]
    split_ifs with hmore hin hin
    · rw [ih hmore (by omega) (h.copyRound hfits hk), hround]
      split_ifs with hlater hnow
      · rfl
      · rfl
      · omega
    · rw [ih hmore (by omega) (h.copyRound hfits hk), hround, if_neg (by omega), if_neg (by omega)]
    · rw [hround, if_pos (by omega)]
    · rw [hround, if_neg (by omega)]

end Chunk

/-! ## All chunks -/

/-- What the loop for a list of chunks does to the pages. -/
structure Extends (chunks : Chunks) (pages pages' : PageMap) : Prop where
  wellSized : WellSized pages'
  hasPage : ∀ p, HasPage pages' p ↔ (∃ a x, a / pageSize = p ∧ Holds chunks a x) ∨ HasPage pages p
  byte : ∀ a x, Holds chunks a x → pageByte pages' a = x
  frame : ∀ a, (∀ x, ¬ Holds chunks a x) → pageByte pages' a = pageByte pages a

/-- The chunks that the loops are made for. -/
structure Chunked (chunks : Chunks) : Prop where
  nonempty : ∀ c ∈ chunks, c.2 ≠ []
  disjoint : chunks.Pairwise Apart
  fits : ∀ c ∈ chunks, stop c < 2 ^ 32

theorem Extends.copyChunk {c : Segment UInt8} {pages : PageMap} (hnonempty : c.2 ≠ [])
    (hfits : stop c < 2 ^ 32) (h : WellSized pages) :
    Extends [c] pages (copyChunk c.1 c.2 0 pages) := by
  have hpositive : 0 < c.2.length := List.length_pos_iff.mpr hnonempty
  have hholds : ∀ a x, Holds [c] a x ↔ HasAt c a x := by
    intro a x
    simp [holds_cons]
  have hcovered : ∀ a, (∃ x, Holds [c] a x) ↔ c.1 ≤ a ∧ a < c.1 + c.2.length := by
    intro a
    simp only [hholds]
    exact exists_hasAt_iff
  constructor
  case wellSized => exact h.copyChunk hfits _ hpositive (Nat.le_refl _)
  case hasPage =>
    intro p
    rw [hasPage_copyChunk hfits p _ hpositive (Nat.le_refl _)]
    simp only [exists_and_left, hcovered, Nat.add_zero]
  case byte =>
    intro a x hx
    have hat := (hholds a x).mp hx
    rw [pageByte_copyChunk hfits a _ hpositive (Nat.le_refl _) h, Nat.add_zero,
      if_pos ((hcovered a).mp ⟨x, hx⟩), hat.2, Option.getD_some]
  case frame =>
    intro a ha
    rw [pageByte_copyChunk hfits a _ hpositive (Nat.le_refl _) h, Nat.add_zero,
      if_neg fun hin => absurd ((hcovered a).mpr hin) (not_exists.mpr ha)]

theorem extends_foldl {chunks : Chunks} (hc : Chunked chunks) {pages : PageMap}
    (h : WellSized pages) :
    Extends chunks pages (chunks.foldl (fun pages chunk => copyChunk chunk.1 chunk.2 0 pages) pages) := by
  obtain ⟨hnonempty, hdisjoint, hfits⟩ := hc
  induction chunks generalizing pages with
  | nil =>
    exact ⟨h, fun p => by simp, fun a x hx => absurd hx not_holds_nil, fun a _ => rfl⟩
  | cons c chunks ih =>
    obtain ⟨hapart, hdisjoint⟩ := List.pairwise_cons.mp hdisjoint
    obtain ⟨hne, hnonempty⟩ := List.forall_mem_cons.mp hnonempty
    obtain ⟨hfit, hfits⟩ := List.forall_mem_cons.mp hfits
    have hfirst := Extends.copyChunk hne hfit h
    have hrest := ih hfirst.wellSized hnonempty hdisjoint hfits
    have hholds : ∀ a x, Holds [c] a x ↔ HasAt c a x := by
      intro a x
      simp [holds_cons]
    constructor
    case wellSized => exact hrest.wellSized
    case hasPage =>
      intro p
      rw [List.foldl_cons, hrest.hasPage, hfirst.hasPage, ← or_assoc]
      apply or_congr_left
      simp only [holds_cons, hholds, and_or_left, exists_or]
      exact Or.comm
    case byte =>
      intro a x hx
      rw [List.foldl_cons]
      rcases holds_cons.mp hx with hx | hx
      · rw [hrest.frame a, hfirst.byte a x ((hholds a x).mpr hx)]
        rintro y ⟨s, hs, hy⟩
        exact (hapart s hs).not_hasAt hx hy
      · exact hrest.byte a x hx
    case frame =>
      intro a ha
      simp only [holds_cons, not_or, forall_and] at ha
      rw [List.foldl_cons, hrest.frame a ha.2, hfirst.frame a fun x => (hholds a x).not.mpr (ha.1 x)]

/-- The pages that have a byte of a chunk, each of 2048 bytes: those of the chunks at their
addresses, and 0 elsewhere. -/
structure PagesOf (chunks : Chunks) (pages : PageMap) : Prop where
  ordered : OrderedMap.Ordered pages
  page : ∀ p, HasPage pages p ↔ ∃ i < 2048, ∃ x, Holds chunks (2048 * p + i) x
  length : ∀ p page, OrderedMap.find? pages p = some page → page.length = 2048
  byte : ∀ p page, OrderedMap.find? pages p = some page → ∀ i < 2048, ∀ x,
    Holds chunks (2048 * p + i) x → page[i]? = some x
  zero : ∀ p page, OrderedMap.find? pages p = some page → ∀ i < 2048,
    (∀ x, ¬ Holds chunks (2048 * p + i) x) → page[i]? = some 0

theorem pageByte_eq {pages : PageMap} (h : WellSized pages) {p i : Nat} {page : List UInt8}
    (hp : OrderedMap.find? pages p = some page) (hi : i < 2048) :
    page[i]? = some (pageByte pages (2048 * p + i)) := by
  have hlength : page.length = 2048 := h.length p page hp
  have hdiv : (2048 * p + i) / pageSize = p := by
    rw [pageSize]
    omega
  have hmod : (2048 * p + i) % pageSize = i := by
    rw [pageSize]
    omega
  rw [pageByte, hdiv, hmod, hp, Option.bind_some, List.getElem?_eq_getElem (by omega), Option.getD_some]

theorem pagesOf_extractPages {chunks : Chunks} (hc : Chunked chunks) :
    PagesOf chunks (extractPages chunks) := by
  have hempty : WellSized [] := ⟨OrderedMap.Ordered.nil, fun p page hp => by cases hp⟩
  have h := extends_foldl hc hempty
  constructor
  case ordered => exact h.wellSized.ordered
  case page =>
    intro p
    have hnone : ¬ HasPage [] p := by simp [HasPage, OrderedMap.find?]
    rw [extractPages, h.hasPage, or_iff_left hnone]
    constructor
    · rintro ⟨a, x, rfl, hx⟩
      have hdiv : 2048 * (a / pageSize) + a % pageSize = a := Nat.div_add_mod a 2048
      exact ⟨a % pageSize, Nat.mod_lt _ pageSize_pos, x, by rwa [hdiv]⟩
    · rintro ⟨i, hi, x, hx⟩
      refine ⟨2048 * p + i, x, ?_, hx⟩
      rw [pageSize]
      omega
  case length => exact h.wellSized.length
  case byte =>
    intro p page hp i hi x hx
    rw [pageByte_eq h.wellSized hp hi, h.byte _ x hx]
  case zero =>
    intro p page hp i hi hx
    rw [pageByte_eq h.wellSized hp hi, h.frame _ hx]
    rfl

end FirmwarePages

open FirmwarePages

/-- An image whose chunks are not empty, do not overlap and end within 32 bits becomes its pages. -/
theorem image_pages {stale : UInt8} {hexData : List UInt8} {chunks : Chunks}
    (hread : readHexFile stale hexData = .ok chunks) (hnonempty : ∀ c ∈ chunks, c.2 ≠ [])
    (hdisjoint : chunks.Pairwise Apart) (hfits : ∀ c ∈ chunks, stop c < 2 ^ 32) :
    ∃ pages, extractPagesFromHex stale hexData = .ok pages ∧ PagesOf chunks pages := by
  refine ⟨extractPages chunks, ?_, pagesOf_extractPages ⟨hnonempty, hdisjoint, hfits⟩⟩
  rw [extractPagesFromHex, hread]
  rfl

/-- The characters of a text. -/
def textOf (s : String) : List UInt8 := s.toList.map fun c => c.toNat.toUInt8

/-- Two bytes at the end of the first page and one at the start of the second. -/
theorem acrossPages_pages :
    ∃ pages, extractPagesFromHex 0 (textOf ":0307FE0041424332\n:00000001FF\n") = .ok pages ∧
      PagesOf [(2046, [0x41, 0x42, 0x43])] pages :=
  image_pages
    (by decide +kernel :
      readHexFile 0 (textOf ":0307FE0041424332\n:00000001FF\n") = .ok [(2046, [0x41, 0x42, 0x43])])
    (by decide) (List.pairwise_singleton _ _)
    (by decide)

end ThymioDeviceManager.Correctness
