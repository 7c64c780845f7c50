import EMS.AllocRefinement
import Mathlib.Tactic.NormNum

/-!
# Layout of EMS memory

Tagged memory is a sequence of lines of eight words.  The first seven words of
a line hold data and the bytes of the last one hold their tags.  The control
block, the elements and the index map follow each other in tagged memory; the
allocator and the heap follow in untagged memory.
-/

namespace EMS

def EMSwordSize : Nat := 8

def EMSnWordsPerTagWord : Nat := EMSwordSize - 1

def EMSnWordsPerLine : Nat := EMSwordSize

/-- Index of the first element of an array, after its control block. -/
def EMS_ARR_CB_SIZE : Nat := 256

def EMSappIdx2emsIdx (idx : Nat) : Nat :=
  idx / EMSnWordsPerTagWord * EMSnWordsPerLine + idx % EMSnWordsPerTagWord

def EMSappIdx2LineIdx (idx : Nat) : Nat :=
  idx / EMSnWordsPerTagWord * EMSnWordsPerLine

def EMSappIdx2TagWordIdx (idx : Nat) : Nat :=
  EMSappIdx2LineIdx idx + EMSnWordsPerTagWord

def EMSappIdx2TagWordOffset (idx : Nat) : Nat :=
  EMSappIdx2TagWordIdx idx * EMSwordSize

def EMSappTag2emsTag (idx : Nat) : Nat :=
  EMSappIdx2TagWordOffset idx + idx % EMSnWordsPerTagWord

def EMScbData (idx : Nat) : Nat := EMSappIdx2emsIdx idx

def EMScbTag (idx : Nat) : Nat := EMSappTag2emsTag idx

def EMSdataData (idx : Nat) : Nat := EMSappIdx2emsIdx (idx + EMS_ARR_CB_SIZE)

def EMSdataTag (idx : Nat) : Nat := EMSappTag2emsTag (idx + EMS_ARR_CB_SIZE)

def EMSdataTagWord (idx : Nat) : Nat :=
  EMSappIdx2TagWordOffset (idx + EMS_ARR_CB_SIZE)

def EMSmapData (nElem idx : Nat) : Nat :=
  EMSappIdx2emsIdx (idx + EMS_ARR_CB_SIZE + nElem)

def EMSmapTag (nElem idx : Nat) : Nat :=
  EMSappTag2emsTag (idx + EMS_ARR_CB_SIZE + nElem)

/-- Number of trailing zero bits of a word. -/
def builtin_ctzl : Nat → Nat
  | 0 => 64
  | x + 1 => if (x + 1) % 2 = 1 then 0 else builtin_ctzl ((x + 1) / 2) + 1
decreasing_by omega

/-- `sizeof(struct emsMem)`: a four byte level and one tree byte, padded. -/
def sizeofEmsMem : Nat := 8

/-- Offset of the first tree byte in `struct emsMem`. -/
def offsetofTree : Nat := 4

/-- The entries of the control block that say where things are, with the level
of the allocator and the size of the file. -/
structure Layout where
  nElem : Nat
  heapSz : Nat
  mapBot : Nat
  mallocBot : Nat
  heapBot : Nat
  fileSz : Nat
  level : Nat

/-- First index of the locks in the EMS control block, which has 32-bit
words. -/
def EMS_CB_LOCKS : Nat := 12

/-- The sizes and offsets that `EMSinitialize` computes.  An array without
elements is the EMS control block itself. -/
def EMSinitializeLayout (nThreads nElements heapSize : Nat)
    (useMap : Bool) : Layout :=
  let nMemBlocks := heapSize / EMS_MEM_BLOCKSZ + 1
  let nMemBlocksPow2 := emsNextPow2 nMemBlocks
  let nMemLevels := builtin_ctzl nMemBlocksPow2
  let bottomOfMap := EMSdataTagWord nElements + EMSwordSize
  let bottomOfMalloc :=
    if useMap then bottomOfMap + bottomOfMap else bottomOfMap
  let bottomOfHeap := bottomOfMalloc + sizeofEmsMem + (nMemBlocksPow2 * 2 - 2)
  { nElem := nElements
    heapSz := heapSize
    mapBot := bottomOfMap / EMSwordSize
    mallocBot := bottomOfMalloc
    heapBot := bottomOfHeap
    fileSz :=
      if nElements = 0 then (EMS_CB_LOCKS + nThreads) * 4
      else bottomOfHeap + nMemBlocksPow2 * EMS_MEM_BLOCKSZ
    level := nMemLevels }

def EMSisMapped (layout : Layout) : Bool :=
  layout.mapBot * EMSwordSize != layout.mallocBot

/-! ## The items of an array -/

/-- What has a data word and a tag. -/
inductive Entry where
  | cb (idx : Nat)
  | data (idx : Nat)
  | map (idx : Nat)
  deriving DecidableEq

/-- What is stored in the file of an array. -/
inductive Item where
  | word (entry : Entry)
  | tag (entry : Entry)
  | allocator
  | heap
  deriving DecidableEq

def Entry.Present (nElem : Nat) (useMap : Bool) : Entry → Prop
  | .cb idx => idx < EMS_ARR_CB_SIZE
  | .data idx => idx < nElem
  | .map idx => useMap = true ∧ idx < nElem

def Item.Present (nElem : Nat) (useMap : Bool) : Item → Prop
  | .word entry => entry.Present nElem useMap
  | .tag entry => entry.Present nElem useMap
  | .allocator => True
  | .heap => True

/-- Index of the data word of an entry. -/
def Entry.word (layout : Layout) : Entry → Nat
  | .cb idx => EMScbData idx
  | .data idx => EMSdataData idx
  | .map idx => EMSmapData layout.nElem idx

/-- Byte offset of the tag of an entry. -/
def Entry.tag (layout : Layout) : Entry → Nat
  | .cb idx => EMScbTag idx
  | .data idx => EMSdataTag idx
  | .map idx => EMSmapTag layout.nElem idx

/-- First byte of an item. -/
def Item.start (layout : Layout) : Item → Nat
  | .word entry => entry.word layout * EMSwordSize
  | .tag entry => entry.tag layout
  | .allocator => layout.mallocBot
  | .heap => layout.heapBot

/-- Number of bytes of an item. -/
def Item.bytes (layout : Layout) : Item → Nat
  | .word _ => EMSwordSize
  | .tag _ => 1
  | .allocator => offsetofTree + (2 ^ (layout.level + 1) - 1)
  | .heap => EMS_MEM_BLOCKSZ * 2 ^ layout.level

def Item.Apart (layout : Layout) (first second : Item) : Prop :=
  first.start layout + first.bytes layout ≤ second.start layout ∨
    second.start layout + second.bytes layout ≤ first.start layout

/-! ## Tagged memory -/

/-- Position of an entry among all the entries of tagged memory. -/
def Entry.appIdx (layout : Layout) : Entry → Nat
  | .cb idx => idx
  | .data idx => idx + EMS_ARR_CB_SIZE
  | .map idx => idx + EMS_ARR_CB_SIZE + layout.nElem

theorem Entry.word_eq (layout : Layout) (entry : Entry) :
    entry.word layout = EMSappIdx2emsIdx (entry.appIdx layout) := by
  cases entry <;> rfl

theorem Entry.tag_eq (layout : Layout) (entry : Entry) :
    entry.tag layout = EMSappTag2emsTag (entry.appIdx layout) := by
  cases entry <;> rfl

theorem Entry.appIdx_injective {layout : Layout} {useMap : Bool}
    {first second : Entry}
    (present : first.Present layout.nElem useMap)
    (present' : second.Present layout.nElem useMap)
    (same : first.appIdx layout = second.appIdx layout) : first = second := by
  cases first <;> cases second <;>
    simp only [Entry.Present, Entry.appIdx, Entry.cb.injEq, Entry.data.injEq,
      Entry.map.injEq, reduceCtorEq, EMS_ARR_CB_SIZE] at * <;> omega

section Lines

variable (i j : Nat)

private theorem words_apart (different : i ≠ j) :
    EMSappIdx2emsIdx i * EMSwordSize + EMSwordSize ≤
      EMSappIdx2emsIdx j * EMSwordSize ∨
      EMSappIdx2emsIdx j * EMSwordSize + EMSwordSize ≤
        EMSappIdx2emsIdx i * EMSwordSize := by
  simp only [EMSappIdx2emsIdx, EMSnWordsPerTagWord, EMSnWordsPerLine,
    EMSwordSize]
  omega

private theorem tags_apart (different : i ≠ j) :
    EMSappTag2emsTag i ≠ EMSappTag2emsTag j := by
  simp only [EMSappTag2emsTag, EMSappIdx2TagWordOffset, EMSappIdx2TagWordIdx,
    EMSappIdx2LineIdx, EMSnWordsPerTagWord, EMSnWordsPerLine, EMSwordSize]
  omega

theorem word_tag_apart :
    EMSappIdx2emsIdx i * EMSwordSize + EMSwordSize ≤ EMSappTag2emsTag j ∨
      EMSappTag2emsTag j + 1 ≤ EMSappIdx2emsIdx i * EMSwordSize := by
  simp only [EMSappIdx2emsIdx, EMSappTag2emsTag, EMSappIdx2TagWordOffset,
    EMSappIdx2TagWordIdx, EMSappIdx2LineIdx, EMSnWordsPerTagWord,
    EMSnWordsPerLine,
    EMSwordSize]
  omega

private theorem word_before_tagWord :
    EMSappIdx2emsIdx i * EMSwordSize + EMSwordSize ≤
      EMSappIdx2TagWordOffset i := by
  simp only [EMSappIdx2emsIdx, EMSappIdx2TagWordOffset, EMSappIdx2TagWordIdx,
    EMSappIdx2LineIdx, EMSnWordsPerTagWord, EMSnWordsPerLine, EMSwordSize]
  omega

private theorem tag_in_tagWord :
    EMSappTag2emsTag i + 1 ≤ EMSappIdx2TagWordOffset i + EMSwordSize := by
  simp only [EMSappTag2emsTag, EMSnWordsPerTagWord, EMSwordSize]
  omega

end Lines

/-! ## The sizes -/

section Sizes

variable {nThreads nElements heapSize : Nat} {useMap : Bool}

private theorem builtin_ctzl_pow (k : Nat) : builtin_ctzl (2 ^ k) = k := by
  induction k with
  | zero =>
      have one : builtin_ctzl (0 + 1) = 0 := by
        rw [builtin_ctzl, if_pos (by decide)]
      exact one
  | succ k induction =>
      obtain ⟨x, positive⟩ := Nat.exists_eq_add_of_le' (Nat.two_pow_pos (k + 1))
      have even : 2 ^ (k + 1) % 2 ≠ 1 := by
        rw [pow_succ]
        omega
      have half : 2 ^ (k + 1) / 2 = 2 ^ k := by
        rw [pow_succ]
        omega
      rw [positive] at even half ⊢
      rw [builtin_ctzl, if_neg even, half, induction]

theorem memBlocks (nThreads nElements : Nat) (useMap : Bool)
    (inWord : heapSize < 2 ^ 63) :
    emsNextPow2 (heapSize / EMS_MEM_BLOCKSZ + 1) =
        2 ^ (EMSinitializeLayout nThreads nElements heapSize useMap).level ∧
      heapSize ≤ EMS_MEM_BLOCKSZ *
        2 ^ (EMSinitializeLayout nThreads nElements heapSize useMap).level := by
  have fits : heapSize / EMS_MEM_BLOCKSZ + 1 < 2 ^ 63 := by
    simp only [EMS_MEM_BLOCKSZ]
    omega
  have rounded := emsNextPow2_eq (Nat.succ_pos _) fits
  have level : (EMSinitializeLayout nThreads nElements heapSize useMap).level =
      Nat.clog 2 (heapSize / EMS_MEM_BLOCKSZ + 1) := by
    simp only [EMSinitializeLayout, rounded, builtin_ctzl_pow]
  have covers :=
    Nat.le_pow_clog (b := 2) (by omega) (heapSize / EMS_MEM_BLOCKSZ + 1)
  rw [level]
  refine ⟨rounded, ?_⟩
  simp only [EMS_MEM_BLOCKSZ] at *
  omega

/-- Tagged memory ends before the allocator. -/
theorem tagged_before_malloc (nThreads heapSize : Nat) {entry : Entry}
    (present : entry.Present nElements useMap) :
    let layout := EMSinitializeLayout nThreads nElements heapSize useMap
    EMSappIdx2TagWordOffset (entry.appIdx layout) + EMSwordSize ≤
        layout.mallocBot := by
  intro layout
  have monotone : ∀ i j,
      i ≤ j → EMSappIdx2TagWordOffset i ≤ EMSappIdx2TagWordOffset j := by
    intro i j le
    simp only [EMSappIdx2TagWordOffset, EMSappIdx2TagWordIdx, EMSappIdx2LineIdx,
      EMSnWordsPerTagWord, EMSnWordsPerLine, EMSwordSize]
    omega
  have unmapped : ∀ i, i ≤ nElements + EMS_ARR_CB_SIZE →
      EMSappIdx2TagWordOffset i + EMSwordSize ≤
        layout.mallocBot := by
    intro i le
    have below := monotone i _ le
    simp only [layout, EMSinitializeLayout, EMSdataTagWord]
    split <;> omega
  cases entry with
  | cb idx =>
      have inside : idx < EMS_ARR_CB_SIZE := present
      exact unmapped idx (by omega)
  | data idx =>
      have inside : idx < nElements := present
      exact unmapped (idx + EMS_ARR_CB_SIZE) (by omega)
  | map idx =>
      -- the map starts in the line of the last element, so it takes no more
      -- lines than the control block and the elements do
      obtain ⟨rfl, inside⟩ := present
      simp only [layout, EMSinitializeLayout, Entry.appIdx, EMSdataTagWord,
        EMSappIdx2TagWordOffset, EMSappIdx2TagWordIdx, EMSappIdx2LineIdx,
        EMSnWordsPerTagWord, EMSnWordsPerLine,
        EMSwordSize, EMS_ARR_CB_SIZE, if_true]
      omega

private theorem untagged_in_order (nThreads : Nat) (nonempty : 1 ≤ nElements)
    (useMap : Bool)
    (inWord : heapSize < 2 ^ 63) :
    let layout := EMSinitializeLayout nThreads nElements heapSize useMap
    layout.mallocBot + (offsetofTree + (2 ^ (layout.level + 1) - 1)) ≤
      layout.heapBot ∧
      layout.heapBot + EMS_MEM_BLOCKSZ * 2 ^ layout.level = layout.fileSz := by
  intro layout
  obtain ⟨blocks, -⟩ := memBlocks nThreads nElements useMap inWord
  have positive := Nat.two_pow_pos layout.level
  have heapBot : layout.heapBot =
      layout.mallocBot + sizeofEmsMem + (2 ^ layout.level * 2 - 2) := by
    rw [← blocks]
    rfl
  have fileSz : layout.fileSz =
      layout.heapBot + 2 ^ layout.level * EMS_MEM_BLOCKSZ := by
    rw [← blocks]
    exact if_neg (by omega)
  rw [fileSz, heapBot, pow_succ, sizeofEmsMem, offsetofTree]
  constructor
  · omega
  · ring

end Sizes

/-! ## No overlap -/

/-- The items of an array that was asked for with `nElements` elements lie side
by side in its file. -/
structure LayoutSafe (layout : Layout) (nElements heapSize : Nat)
    (useMap : Bool) :
    Prop where
  nElem : layout.nElem = nElements
  apart : ∀ first second : Item, first.Present nElements useMap →
    second.Present nElements useMap → first ≠ second → first.Apart layout second
  inFile : ∀ item : Item, item.Present nElements useMap →
    item.start layout + item.bytes layout ≤ layout.fileSz
  heapLargeEnough : heapSize ≤ Item.heap.bytes layout
  mapped : EMSisMapped layout = useMap

theorem Item.Apart.symm {layout : Layout} {first second : Item}
    (apart : first.Apart layout second) : second.Apart layout first :=
  Or.symm apart

section

variable {nThreads nElements heapSize : Nat} {useMap : Bool}

theorem Item.tagged_end (nThreads heapSize : Nat) {entry : Entry}
    (present : entry.Present nElements useMap) {item : Item}
    (tagged : item = .word entry ∨ item = .tag entry) :
    let layout := EMSinitializeLayout nThreads nElements heapSize useMap
    item.start layout + item.bytes layout ≤ layout.mallocBot := by
  intro layout
  have ends : EMSappIdx2TagWordOffset (entry.appIdx layout) + EMSwordSize ≤
      layout.mallocBot := tagged_before_malloc nThreads heapSize present
  rcases tagged with rfl | rfl
  · have word := word_before_tagWord (entry.appIdx layout)
    simp only [Item.start, Item.bytes, Entry.word_eq]
    omega
  · have tag := tag_in_tagWord (entry.appIdx layout)
    simp only [Item.start, Item.bytes, Entry.tag_eq]
    omega

theorem Item.tagged_apart {layout : Layout} {first second : Item}
    {entry entry' : Entry}
    (present : entry.Present layout.nElem useMap)
    (present' : entry'.Present layout.nElem useMap)
    (tagged : first = .word entry ∨ first = .tag entry)
    (tagged' : second = .word entry' ∨ second = .tag entry')
    (different : first ≠ second) : first.Apart layout second := by
  have positions : entry ≠ entry' →
      entry.appIdx layout ≠ entry'.appIdx layout :=
    fun distinct same => distinct (Entry.appIdx_injective present present' same)
  rcases tagged with rfl | rfl <;> rcases tagged' with rfl | rfl <;>
    simp only [Item.Apart, Item.start, Item.bytes, Entry.word_eq, Entry.tag_eq]
  · exact words_apart _ _ (positions fun same => different (by rw [same]))
  · exact word_tag_apart _ _
  · exact (word_tag_apart _ _).symm
  · have distinct :=
      tags_apart _ _ (positions fun same => different (by rw [same]))
    omega

/-- With the offsets that `EMSinitialize` computes nothing overlaps, everything
lies inside the file, the heap is as large as asked for, and `EMSisMapped`
tells whether there is a map. -/
theorem EMSinitialize_layout (nonempty : 1 ≤ nElements)
    (inWord : heapSize < 2 ^ 63) :
    LayoutSafe (EMSinitializeLayout nThreads nElements heapSize useMap)
      nElements heapSize
      useMap := by
  obtain ⟨allocatorEnd, heapEnd⟩ :=
    untagged_in_order nThreads nonempty useMap inWord
  have taggedOr : ∀ item : Item, item.Present nElements useMap →
      (∃ entry : Entry, entry.Present nElements useMap ∧
        (item = .word entry ∨ item = .tag entry)) ∨ item = .allocator ∨
            item = .heap := by
    intro item present
    cases item with
    | word entry => exact .inl ⟨entry, present, .inl rfl⟩
    | tag entry => exact .inl ⟨entry, present, .inr rfl⟩
    | allocator => exact .inr (.inl rfl)
    | heap => exact .inr (.inr rfl)
  refine ⟨rfl, ?_, ?_, ?_, ?_⟩
  · intro first second present present' different
    rcases taggedOr first present with ⟨entry, inTagged, tagged⟩ | rfl | rfl <;>
      rcases taggedOr second present'
        with ⟨entry', inTagged', tagged'⟩ | rfl | rfl
    · exact Item.tagged_apart inTagged inTagged' tagged tagged' different
    · exact .inl (Item.tagged_end nThreads heapSize inTagged tagged)
    · refine .inl ((Item.tagged_end nThreads heapSize inTagged tagged).trans ?_)
      simp only [Item.start]
      omega
    · exact .inr (Item.tagged_end nThreads heapSize inTagged' tagged')
    · exact absurd rfl different
    · exact .inl allocatorEnd
    · refine .inr ((Item.tagged_end nThreads heapSize inTagged' tagged').trans
        ?_)
      simp only [Item.start]
      omega
    · exact .inr allocatorEnd
    · exact absurd rfl different
  · intro item present
    rcases taggedOr item present with ⟨entry, inTagged, tagged⟩ | rfl | rfl
    · have ends := Item.tagged_end nThreads heapSize inTagged tagged
      simp only at ends
      omega
    · simp only [Item.start, Item.bytes]
      omega
    · exact heapEnd.le
  · exact (memBlocks nThreads nElements useMap inWord).2
  · have wholeWords : EMSdataTagWord nElements + EMSwordSize =
        (EMSdataTagWord nElements + EMSwordSize) / EMSwordSize *
            EMSwordSize := by
      simp only [EMSdataTagWord, EMSappIdx2TagWordOffset, EMSwordSize]
      omega
    cases useMap with
    | false => simp [EMSisMapped, EMSinitializeLayout, ← wholeWords]
    | true =>
        have twice : EMSdataTagWord nElements + EMSwordSize ≠
            EMSdataTagWord nElements + EMSwordSize +
              (EMSdataTagWord nElements + EMSwordSize) := by
          simp only [EMSwordSize]
          omega
        simp only [EMSisMapped, EMSinitializeLayout, ← wholeWords, if_true]
        exact bne_iff_ne.mpr twice

theorem EMSinitialize_layout_mapped :
    LayoutSafe (EMSinitializeLayout 4 1000 100000 true) 1000 100000 true :=
  EMSinitialize_layout (by decide) (by decide)

end

end EMS
