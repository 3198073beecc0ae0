import Zabbix.Comms.Tcp
import Zabbix.Str

/-!
# Zabbix.Httppoller.Page

The page that `WRITEFUNCTION2` of `zabbix_server/httppoller/httptest.c` puts
together from the chunks of a response.  libcurl hands over `size * nmemb`
bytes and no terminator; the callback prints them with `%s`, so how far it
reads and what it appends depends on the memory that follows the chunk.

`Assembles` is what the callback is for: the page is the body, and no byte
behind a chunk is read.
-/

namespace Zabbix

/-! ## the callback -/

/-- What libcurl passes to the callback for a body without NUL: the
`size * nmemb` bytes at `ptr`, and the mapped memory that follows them. -/
structure Chunk where
  bytes : List UInt8
  behind : List UInt8
  nul_not_mem : (0 : UInt8) ∉ bytes

/-- `page`, with `data` up to `offset`; it is `NULL` before the first piece. -/
structure Page where
  data : Option (List UInt8)
  allocated : ℕ

/-- `memset(&page, 0, sizeof(page))`. -/
def Page.zero : Page := ⟨none, 0⟩

def Page.text (page : Page) : List UInt8 := page.data.getD []

/-- `MAX(8096, r_size)` -/
def Chunk.maxLen (c : Chunk) : ℕ := max 8096 c.bytes.length

/-- The string that `%s` finds at `ptr`; `none` when the mapped memory ends
before a NUL. -/
def Chunk.string? (c : Chunk) : Option (List UInt8) :=
  if (0 : UInt8) ∈ c.behind then some ((c.bytes ++ c.behind).takeWhile (· ≠ 0)) else none

/-- How many bytes `vsnprintf` reads at `ptr`: it goes on to the NUL, whatever
the room is, for it returns the length of the whole text. -/
def Chunk.bytesRead (c : Chunk) : ℕ := ((c.bytes ++ c.behind).takeWhile (· ≠ 0)).length + 1

/-- `WRITEFUNCTION2`; `none` when the read runs into unmapped memory, and when
an `int` of the page's sizes overflows. -/
def writefunction2 (page : Page) (c : Chunk) : Option Page := do
  let allocated := if page.data = none then c.maxLen else page.allocated
  let allocated ← growAllocated (page.text.length + c.maxLen) allocated
  let string ← c.string?
  return ⟨some (zbxSnprintfAlloc page.text c.maxLen string), allocated⟩

/-- The page after `curl_easy_perform` has passed all chunks on. -/
def assemble (chunks : List Chunk) : Option Page := chunks.foldlM writefunction2 Page.zero

/-- The page is the body, and nothing is read that is not in a chunk. -/
def Assembles (chunks : List Chunk) : Prop :=
  (assemble chunks).map Page.text = some (chunks.flatMap Chunk.bytes) ∧
    ∀ c ∈ chunks, c.bytesRead ≤ c.bytes.length

/-! ## what one call reads and appends -/

theorem takeWhile_append_behind (c : Chunk) :
    (c.bytes ++ c.behind).takeWhile (· ≠ 0) = c.bytes ++ c.behind.takeWhile (· ≠ 0) :=
  List.takeWhile_append_of_pos fun _ ha => decide_eq_true fun h => c.nul_not_mem (h ▸ ha)

/-- Every call reads at least the byte that follows the chunk. -/
theorem Chunk.length_lt_bytesRead (c : Chunk) : c.bytes.length < c.bytesRead := by
  rw [bytesRead, takeWhile_append_behind, List.length_append]
  omega

/-- A call appends its chunk exactly when that is less than 8096 bytes, and
followed by NUL or one byte below the cap; at 8096 bytes and more the cap,
which counts the terminator, takes the last byte off. -/
theorem Chunk.printed_eq_bytes_iff (c : Chunk) :
    zbxVsnprintf c.maxLen ((c.bytes ++ c.behind).takeWhile (· ≠ 0)) = c.bytes ↔
      c.bytes.length < 8096 ∧ (c.bytes.length = 8095 ∨ c.behind.takeWhile (· ≠ 0) = []) := by
  rw [takeWhile_append_behind, zbxVsnprintf, maxLen]
  constructor
  · intro heq
    have hlen := congrArg List.length heq
    rw [List.length_take, List.length_append] at hlen
    refine ⟨by omega, ?_⟩
    by_contra hne
    rw [not_or, ← List.length_eq_zero_iff] at hne
    omega
  · rintro ⟨hlt, hfull | hnul⟩
    · rw [max_eq_left (by omega), List.take_append_of_le_length (by omega), List.take_of_length_le (by omega)]
    · rw [hnul, List.append_nil, List.take_of_length_le (by omega)]

/-! ## the page -/

/-- Doubling `allocated` reaches every size below `allocated * 2 ^ k`. -/
theorem growAllocated_of_lt {need allocated : ℕ} (k : ℕ) (h0 : 0 < allocated) (hneed : need < allocated * 2 ^ k)
    (hint : allocated * 2 ^ k < 2 ^ 31) :
    ∃ j ≤ k, growAllocated need allocated = some (allocated * 2 ^ j) := by
  induction k generalizing allocated with
  | zero =>
      rw [Nat.pow_zero, Nat.mul_one] at hneed
      exact ⟨0, le_rfl, by rw [growAllocated, if_pos hneed, Nat.pow_zero, Nat.mul_one]⟩
  | succ k ih =>
      rw [Nat.pow_succ', ← Nat.mul_assoc] at hneed hint
      by_cases hlt : need < allocated
      · exact ⟨0, Nat.zero_le _, by rw [growAllocated, if_pos hlt, Nat.pow_zero, Nat.mul_one]⟩
      · have hdouble : allocated * 2 < 2 ^ 31 :=
          (Nat.le_mul_of_pos_right _ (Nat.pow_pos Nat.two_pos)).trans_lt hint
        obtain ⟨j, hj, hgrow⟩ := ih (Nat.mul_pos h0 Nat.two_pos) hneed hint
        refine ⟨j + 1, Nat.succ_le_succ hj, ?_⟩
        rw [growAllocated, if_neg hlt, dif_pos ⟨h0, hdouble⟩, hgrow, Nat.pow_succ', ← Nat.mul_assoc]

/-- A page that starts with a piece of less than 8096 bytes has one of these
sizes, or is still to be allocated. -/
def Page.Sized (page : Page) : Prop := page.data = none ∨ ∃ j ≤ 18, page.allocated = 8096 * 2 ^ j

theorem writefunction2_eq {page : Page} {c : Chunk} {allocated : ℕ} {string : List UInt8}
    (hgrow : growAllocated (page.text.length + c.maxLen)
      (if page.data = none then c.maxLen else page.allocated) = some allocated)
    (hstring : c.string? = some string) :
    writefunction2 page c = some ⟨some (zbxSnprintfAlloc page.text c.maxLen string), allocated⟩ := by
  rw [writefunction2, hgrow, hstring]
  rfl

/-- A chunk that is shorter than the initial allocation and that a NUL happens
to follow is appended as it is. -/
theorem writefunction2_of_nul {page : Page} {c : Chunk} (hpage : page.Sized) (hlt : c.bytes.length < 8096)
    (hnul : c.behind.head? = some 0) (hint : page.text.length + 8096 < 8096 * 2 ^ 18) :
    ∃ page' : Page, writefunction2 page c = some page' ∧ page'.text = page.text ++ c.bytes ∧ page'.Sized := by
  obtain ⟨behind, hbehind⟩ := List.head?_eq_some_iff.mp hnul
  have hmax : c.maxLen = 8096 := max_eq_left hlt.le
  have hmem : (0 : UInt8) ∈ c.behind := hbehind ▸ List.mem_cons_self
  have hprinted := c.printed_eq_bytes_iff.mpr ⟨hlt, .inr (by rw [hbehind]; rfl)⟩
  -- the size before the call is the initial one times a power of two
  obtain ⟨j, hj, hallocated⟩ :
      ∃ j ≤ 18, (if page.data = none then c.maxLen else page.allocated) = 8096 * 2 ^ j := by
    rcases hpage with hnone | ⟨j, hj, hallocated⟩
    · exact ⟨0, Nat.zero_le _, by rw [if_pos hnone, hmax]; rfl⟩
    · split
      · exact ⟨0, Nat.zero_le _, hmax⟩
      · exact ⟨j, hj, hallocated⟩
  have hpow : 8096 * 2 ^ j * 2 ^ (18 - j) = 8096 * 2 ^ 18 := by
    rw [Nat.mul_assoc, ← Nat.pow_add, Nat.add_sub_cancel' hj]
  obtain ⟨i, hi, hgrow⟩ := growAllocated_of_lt (18 - j) (Nat.mul_pos (by decide) (Nat.pow_pos Nat.two_pos))
    (hpow.symm ▸ hint) (hpow.symm ▸ by decide)
  refine ⟨⟨some (page.text ++ c.bytes), 8096 * 2 ^ j * 2 ^ i⟩, ?_, rfl, .inr ⟨j + i, by omega, ?_⟩⟩
  · rw [writefunction2_eq (by rw [hallocated, hmax]; exact hgrow) (if_pos hmem), zbxSnprintfAlloc, hprinted]
  · rw [Nat.mul_assoc, ← Nat.pow_add]

/-- Chunks below the initial allocation that happen to be followed by NUL add up to the
body, as long as the sizes are `int`s. -/
theorem assemble_of_nul {chunks : List Chunk} (hlt : ∀ c ∈ chunks, c.bytes.length < 8096)
    (hnul : ∀ c ∈ chunks, c.behind.head? = some 0)
    (hint : (chunks.flatMap Chunk.bytes).length + 8096 < 8096 * 2 ^ 18) :
    (assemble chunks).map Page.text = some (chunks.flatMap Chunk.bytes) := by
  have hrun : ∀ (rest : List Chunk) (page : Page), (∀ c ∈ rest, c ∈ chunks) → page.Sized →
      (page.text ++ rest.flatMap Chunk.bytes).length + 8096 < 8096 * 2 ^ 18 →
      (rest.foldlM writefunction2 page).map Page.text = some (page.text ++ rest.flatMap Chunk.bytes) := by
    intro rest
    induction rest with
    | nil => intro page _ _ _; exact congrArg some (List.append_nil _).symm
    | cons c rest ih =>
        intro page hmem hpage hlen
        have hc : c ∈ chunks := hmem c List.mem_cons_self
        obtain ⟨page', hstep, htext, hpage'⟩ := writefunction2_of_nul hpage (hlt c hc) (hnul c hc)
          (by rw [List.length_append] at hlen; omega)
        rw [List.flatMap_cons, ← List.append_assoc, ← htext] at hlen ⊢
        rw [List.foldlM_cons, hstep]
        exact ih page' (fun d hd => hmem d (List.mem_cons_of_mem _ hd)) hpage' hlen
  exact hrun chunks Page.zero (fun _ h => h) (.inl rfl) hint

/-- The callback does what it is for on no chunk at all: whatever follows it,
the print reads on behind it. -/
theorem assembles_iff (chunks : List Chunk) : Assembles chunks ↔ chunks = [] := by
  constructor
  · rintro ⟨-, hread⟩
    refine List.eq_nil_iff_forall_not_mem.mpr fun c hc => ?_
    exact Nat.not_lt.mpr (hread c hc) c.length_lt_bytesRead
  · rintro rfl
    exact ⟨rfl, List.forall_mem_nil _⟩

/-- The body `OK` in one chunk, in front of what an earlier response has left
there. -/
def staleChunk : Chunk := ⟨bytes "OK", bytes "D" ++ [0], by decide⟩

theorem assemble_staleChunk : (assemble [staleChunk]).map Page.text = some (bytes "OKD") := by
  have hgrow : growAllocated (Page.zero.text.length + staleChunk.maxLen) staleChunk.maxLen = some 16192 := by
    rw [show staleChunk.maxLen = 8096 by decide, growAllocated, if_neg (by decide), dif_pos (by decide), growAllocated, if_pos (by decide)]
  have hstep : writefunction2 Page.zero staleChunk = some ⟨some (bytes "OKD"), 16192⟩ :=
    @writefunction2_eq Page.zero staleChunk 16192 (bytes "OKD") hgrow (by decide)
  rw [assemble, List.foldlM_cons, hstep]
  rfl

theorem not_assembles_stale : ¬∀ chunks : List Chunk, Assembles chunks := by
  intro h
  have htext := (h [staleChunk]).1
  rw [assemble_staleChunk] at htext
  exact absurd htext (by decide)

end Zabbix
