import CLanguageLearning.Foundation.Exec

/-!
# The block tables of the two `cat` programs

Both programs count the blocks of a file from its size as an `int`, allocate an array of so many
`iovec` and fill it from the whole size. The two counts agree for files of less than 2³¹ bytes, and
for no others.
-/

set_option autoImplicit false

namespace CLanguageLearning.Uring

open CLanguageLearning.Foundation

/-- The size of the largest object. -/
def PTRDIFF_MAX : Nat := 2 ^ 63 - 1

/-- The size of `struct iovec`. -/
def IOVEC_SIZE : Nat := 16

/-- The size of `struct file_info` without its `iovecs`. -/
def FILE_INFO_SIZE : Nat := 8

/-- `int blocks = (int)file_sz / BLOCK_SZ; if (file_sz % BLOCK_SZ) blocks++;` -/
def blockCount (BLOCK_SZ file_sz : Nat) : Int :=
  let blocks := ((file_sz : Int).bmod (2 ^ 32)).tdiv BLOCK_SZ
  if file_sz % BLOCK_SZ ≠ 0 then blocks + 1 else blocks

/-- The entries in what `malloc(header + sizeof(struct iovec) * blocks)` returns, when memory is not
short. The product is a `size_t`; no object is larger than `PTRDIFF_MAX`. -/
def allocated (header : Nat) (blocks : Int) : Option Nat :=
  let size := ((header + IOVEC_SIZE * blocks) % 2 ^ 64).toNat
  if size ≤ PTRDIFF_MAX then some ((size - header) / IOVEC_SIZE) else none

/-- `while (bytes_remaining) …` in at most the given number of turns: the `iov_len` that are stored
in an array of `n` entries, from `current_block` on. -/
def fillLoop (BLOCK_SZ n : Nat) : Nat → Nat → Nat → Except Halt (List Nat)
  | 0, _, _ => .error .diverged
  | fuel + 1, current_block, bytes_remaining =>
      if bytes_remaining = 0 then .ok []
      else
        let bytes_to_read := min bytes_remaining BLOCK_SZ
        if current_block < n then
          (fillLoop BLOCK_SZ n fuel (current_block + 1) (bytes_remaining - bytes_to_read)).map
            (bytes_to_read :: ·)
        else .error .undefined

/-- The loop over a whole file. Each turn takes a byte at least. -/
def fillTable (BLOCK_SZ n file_sz : Nat) : Except Halt (List Nat) :=
  fillLoop BLOCK_SZ n (file_sz + 1) 0 file_sz

/-- The lengths that are read from the array at `i` and behind it, so many. -/
def outputFrom (table : List Nat) : Nat → Nat → Except Halt (List Nat)
  | 0, _ => .ok []
  | n + 1, i =>
      match table[i]? with
      | some len => (outputFrom table n (i + 1)).map (len :: ·)
      | none => .error .undefined

/-- `for (int i = 0; i < blocks; i++) output_to_console(iovecs[i].iov_base, iovecs[i].iov_len);` -/
def outputLoop (table : List Nat) (blocks : Int) : Except Halt (List Nat) :=
  outputFrom table blocks.toNat 0

/-- `submit_to_sq` of `use-io_uring-cat.c`, as far as the table; it returns if `malloc` fails. -/
def submit_to_sq (file_sz : Nat) : Except Halt (List Nat) :=
  match allocated FILE_INFO_SIZE (blockCount 1024 file_sz) with
  | none => .error .outOfMemory
  | some n => fillTable 1024 n file_sz

/-- `read_from_cq` of the same program, for the completion of that request. -/
def read_from_cq (file_sz : Nat) (table : List Nat) : Except Halt (List Nat) :=
  outputLoop table (blockCount 1024 file_sz)

/-- The table of `read_and_print_file` in `no-use-io_uring-cat.c`. What `malloc` returns is not
looked at. -/
def readTable (file_size : Nat) : Except Halt (List Nat) :=
  fillTable 4096 ((allocated 0 (blockCount 4096 file_size)).getD 0) file_size

/-- The loop of `read_and_print_file` that prints what has been read. -/
def printTable (file_size : Nat) (table : List Nat) : Except Halt (List Nat) :=
  outputLoop table (blockCount 4096 file_size)

/-- A table is filled within its array, has as many entries as blocks have been counted, and makes
up the file; what is printed are its entries. -/
def TableRight (file_sz : Nat) (fill : Except Halt (List Nat)) (blocks : Int)
    (output : List Nat → Except Halt (List Nat)) : Prop :=
  ∃ table, fill = .ok table ∧ (table.length : Int) = blocks ∧ table.sum = file_sz ∧
    output table = .ok table

/-- The number of blocks that a file has. -/
def blocksOf (BLOCK_SZ file_sz : Nat) : Nat :=
  file_sz / BLOCK_SZ + if file_sz % BLOCK_SZ = 0 then 0 else 1

section Tables

variable {BLOCK_SZ n file_sz fuel current_block bytes_remaining : Nat} {table : List Nat}

theorem blocksOf_zero (BLOCK_SZ : Nat) : blocksOf BLOCK_SZ 0 = 0 := by
  rw [blocksOf, Nat.zero_div, if_pos (Nat.zero_mod _)]

/-- A turn takes a block, or what is left. -/
theorem blocksOf_turn (hsize : 0 < BLOCK_SZ) (hpos : 0 < bytes_remaining) :
    blocksOf BLOCK_SZ bytes_remaining =
      blocksOf BLOCK_SZ (bytes_remaining - min bytes_remaining BLOCK_SZ) + 1 := by
  rcases Nat.lt_or_ge bytes_remaining BLOCK_SZ with hlt | hge
  · rw [min_eq_left hlt.le, Nat.sub_self, blocksOf_zero, blocksOf, Nat.div_eq_of_lt hlt,
      Nat.mod_eq_of_lt hlt, if_neg hpos.ne']
  · rw [min_eq_right hge, blocksOf, blocksOf, Nat.div_eq_sub_div hsize hge, Nat.mod_eq_sub_mod hge,
      Nat.add_right_comm]

/-- A table that gets filled has an entry for each block. -/
theorem fillLoop_ok (hsize : 0 < BLOCK_SZ)
    (h : fillLoop BLOCK_SZ n fuel current_block bytes_remaining = .ok table) :
    table.length = blocksOf BLOCK_SZ bytes_remaining ∧ table.sum = bytes_remaining := by
  induction fuel generalizing current_block bytes_remaining table with
  | zero => cases h
  | succ fuel ih =>
      rw [fillLoop] at h
      by_cases hzero : bytes_remaining = 0
      · rw [if_pos hzero] at h
        cases h
        rw [hzero, blocksOf_zero]
        exact ⟨rfl, rfl⟩
      · rw [if_neg hzero] at h
        dsimp only at h
        split_ifs at h with hin
        cases hrest : fillLoop BLOCK_SZ n fuel (current_block + 1)
            (bytes_remaining - min bytes_remaining BLOCK_SZ) with
        | error e =>
            rw [hrest] at h
            cases h
        | ok rest =>
            rw [hrest] at h
            cases h
            obtain ⟨hlen, hsum⟩ := ih hrest
            rw [List.length_cons, List.sum_cons, hlen, hsum,
              ← blocksOf_turn hsize (Nat.pos_of_ne_zero hzero)]
            exact ⟨rfl, Nat.add_sub_cancel' (min_le_left _ _)⟩

/-- No entry is longer than a block. -/
theorem fillLoop_le (h : fillLoop BLOCK_SZ n fuel current_block bytes_remaining = .ok table) :
    ∀ len ∈ table, len ≤ BLOCK_SZ := by
  induction fuel generalizing current_block bytes_remaining table with
  | zero => cases h
  | succ fuel ih =>
      rw [fillLoop] at h
      dsimp only at h
      split_ifs at h
      · cases h
        simp
      · cases hrest : fillLoop BLOCK_SZ n fuel (current_block + 1)
            (bytes_remaining - min bytes_remaining BLOCK_SZ) with
        | error e =>
            rw [hrest] at h
            cases h
        | ok rest =>
            rw [hrest] at h
            cases h
            exact List.forall_mem_cons.mpr ⟨min_le_right .., ih hrest⟩

/-- It gets filled if the array has room for the blocks. -/
theorem fillLoop_run (hsize : 0 < BLOCK_SZ) (hfuel : bytes_remaining < fuel)
    (hroom : current_block + blocksOf BLOCK_SZ bytes_remaining ≤ n) :
    ∃ table, fillLoop BLOCK_SZ n fuel current_block bytes_remaining = .ok table := by
  induction fuel generalizing current_block bytes_remaining with
  | zero => exact absurd hfuel (Nat.not_lt_zero _)
  | succ fuel ih =>
      rw [fillLoop]
      by_cases hzero : bytes_remaining = 0
      · exact ⟨[], if_pos hzero⟩
      · -- the turn stores an entry, and leaves a block less to the others
        have hpos := Nat.pos_of_ne_zero hzero
        rw [blocksOf_turn hsize hpos] at hroom
        have hless : 0 < min bytes_remaining BLOCK_SZ := lt_min hpos hsize
        have hfuel' : bytes_remaining - min bytes_remaining BLOCK_SZ < fuel := by omega
        have hroom' : current_block + 1 +
            blocksOf BLOCK_SZ (bytes_remaining - min bytes_remaining BLOCK_SZ) ≤ n := by omega
        obtain ⟨rest, hrest⟩ := ih hfuel' hroom'
        refine ⟨min bytes_remaining BLOCK_SZ :: rest, ?_⟩
        rw [if_neg hzero]
        dsimp only
        rw [if_pos (by omega), hrest]
        rfl

/-- The loop that prints a table reads its entries. -/
theorem outputFrom_run (h : current_block + n = table.length) :
    outputFrom table n current_block = .ok (table.drop current_block) := by
  induction n generalizing current_block with
  | zero =>
      have hend : table.length ≤ current_block := h.ge
      rw [outputFrom, List.drop_eq_nil_of_le hend]
  | succ n ih =>
      have hin : current_block < table.length := by omega
      rw [outputFrom, List.getElem?_eq_getElem hin]
      dsimp only
      rw [ih (by omega), List.drop_eq_getElem_cons hin]
      rfl

theorem outputLoop_run (table : List Nat) : outputLoop table table.length = .ok table :=
  outputFrom_run (Nat.zero_add _)

/-- As an `int` the size is too small for the blocks of a file of 2³¹ bytes or more. -/
theorem tdiv_bmod_lt {k : Nat} (hsize : 0 < BLOCK_SZ) (hk : 2 ^ 31 = BLOCK_SZ * k) (x : Int) :
    (x.bmod (2 ^ 32)).tdiv BLOCK_SZ < k := by
  have hlt : x.bmod (2 ^ 32) < k * BLOCK_SZ := by
    have hmax : x.bmod (2 ^ 32) < 2 ^ 31 := Int.bmod_lt (by decide)
    have hk' : (2 : Int) ^ 31 = k * BLOCK_SZ := by
      rw [mul_comm]
      exact_mod_cast hk
    rwa [hk'] at hmax
  have hk0 : 0 < k := by
    rcases Nat.eq_zero_or_pos k with rfl | hpos
    · cases hk
    · exact hpos
  rcases lt_or_ge (x.bmod (2 ^ 32)) 0 with hneg | hnonneg
  · -- the division of a negative `int` rounds to 0
    have hle : (x.bmod (2 ^ 32)).tdiv BLOCK_SZ ≤ (0 : Int).tdiv BLOCK_SZ :=
      Int.tdiv_le_tdiv (by exact_mod_cast hsize) hneg.le
    rw [Int.zero_tdiv] at hle
    exact Int.lt_of_le_of_lt hle (by exact_mod_cast hk0)
  · rw [Int.tdiv_eq_ediv_of_nonneg hnonneg]
    exact Int.ediv_lt_of_lt_mul (by exact_mod_cast hsize) hlt

/-- The number of blocks that is counted is right for the sizes that are an `int`, and for no
others. -/
theorem blockCount_eq_iff {k : Nat} (hsize : 0 < BLOCK_SZ) (hk : 2 ^ 31 = BLOCK_SZ * k) :
    blockCount BLOCK_SZ file_sz = blocksOf BLOCK_SZ file_sz ↔ file_sz < 2 ^ 31 := by
  have hcount : blockCount BLOCK_SZ file_sz = blocksOf BLOCK_SZ file_sz ↔
      ((file_sz : Int).bmod (2 ^ 32)).tdiv BLOCK_SZ = (file_sz / BLOCK_SZ : Nat) := by
    rw [blockCount, blocksOf]
    by_cases hmod : file_sz % BLOCK_SZ = 0
    · simp [hmod]
    · simp [hmod]
  rw [hcount]
  constructor
  · intro heq
    have hlt := tdiv_bmod_lt hsize hk file_sz
    rw [heq, Int.ofNat_lt, Nat.div_lt_iff_lt_mul hsize, Nat.mul_comm, ← hk] at hlt
    exact hlt
  · intro hlt
    rw [Int.bmod_eq_of_le (by omega) (by omega)]
    rfl

/-- The array has an entry for each block. -/
theorem allocated_eq {header : Nat} (hheader : header ≤ FILE_INFO_SIZE) (hn : n ≤ 2 ^ 31) :
    allocated header n = some n := by
  have hfile : FILE_INFO_SIZE = 8 := rfl
  have hiovec : IOVEC_SIZE = 16 := rfl
  have hmax : PTRDIFF_MAX = 2 ^ 63 - 1 := rfl
  have hrequest : ((header + IOVEC_SIZE * n : Int) % 2 ^ 64).toNat = header + IOVEC_SIZE * n := by
    rw [hiovec]
    omega
  have hfits : header + IOVEC_SIZE * n ≤ PTRDIFF_MAX := by
    rw [hiovec, hmax]
    omega
  rw [allocated, hrequest, if_pos hfits, Nat.add_sub_cancel_left, Nat.mul_div_cancel_left n (by decide)]

theorem blocksOf_le (hlt : file_sz < 2 ^ 31) : blocksOf BLOCK_SZ file_sz ≤ 2 ^ 31 := by
  have hle := Nat.div_le_self file_sz BLOCK_SZ
  rw [blocksOf]
  split <;> omega

/-- A table can only be right if the size is an `int`. -/
theorem TableRight.size_lt {k : Nat} {output : List Nat → Except Halt (List Nat)}
    (h : TableRight file_sz (fillTable BLOCK_SZ n file_sz) (blockCount BLOCK_SZ file_sz) output)
    (hsize : 0 < BLOCK_SZ) (hk : 2 ^ 31 = BLOCK_SZ * k) : file_sz < 2 ^ 31 := by
  obtain ⟨table, hfill, hcount, -⟩ := h
  rw [(fillLoop_ok hsize hfill).1] at hcount
  exact (blockCount_eq_iff hsize hk).mp hcount.symm

theorem not_tableRight_of_error {e : Halt} {blocks : Int}
    {output : List Nat → Except Halt (List Nat)} :
    ¬ TableRight file_sz (.error e) blocks output := by
  rintro ⟨table, hfill, -⟩
  cases hfill

/-- With room for the blocks that are counted it is. -/
theorem tableRight_of_lt {k : Nat} (hsize : 0 < BLOCK_SZ) (hk : 2 ^ 31 = BLOCK_SZ * k)
    (hlt : file_sz < 2 ^ 31) :
    TableRight file_sz (fillTable BLOCK_SZ (blocksOf BLOCK_SZ file_sz) file_sz)
      (blockCount BLOCK_SZ file_sz)
      (outputLoop · (blockCount BLOCK_SZ file_sz)) := by
  have hcount := (blockCount_eq_iff hsize hk).mpr hlt
  have hroom : 0 + blocksOf BLOCK_SZ file_sz ≤ blocksOf BLOCK_SZ file_sz := (Nat.zero_add _).le
  obtain ⟨table, hfill⟩ := fillLoop_run hsize (Nat.lt_succ_self file_sz) hroom
  obtain ⟨hlen, hsum⟩ := fillLoop_ok hsize hfill
  rw [hcount, ← hlen]
  exact ⟨table, hlen ▸ hfill, rfl, hsum, outputLoop_run table⟩

/-- What `submit_to_sq` allocates has room for the blocks. -/
theorem submit_to_sq_eq (hlt : file_sz < 2 ^ 31) :
    submit_to_sq file_sz = fillTable 1024 (blocksOf 1024 file_sz) file_sz := by
  have hcount : blockCount 1024 file_sz = blocksOf 1024 file_sz :=
    (blockCount_eq_iff (k := 2 ^ 21) (by decide) (by decide)).mpr hlt
  rw [submit_to_sq, hcount, allocated_eq (Nat.le_refl _) (blocksOf_le hlt)]

theorem readTable_eq (hlt : file_sz < 2 ^ 31) :
    readTable file_sz = fillTable 4096 (blocksOf 4096 file_sz) file_sz := by
  have hcount : blockCount 4096 file_sz = blocksOf 4096 file_sz :=
    (blockCount_eq_iff (k := 2 ^ 19) (by decide) (by decide)).mpr hlt
  rw [readTable, hcount, allocated_eq (Nat.zero_le _) (blocksOf_le hlt)]
  rfl

/-- The tables of both programs are right for the files of less than 2³¹ bytes, and for no
others. -/
theorem block_tables_right_iff (file_sz : Nat) :
    (TableRight file_sz (submit_to_sq file_sz) (blockCount 1024 file_sz) (read_from_cq file_sz) ↔
      file_sz < 2 ^ 31) ∧
    (TableRight file_sz (readTable file_sz) (blockCount 4096 file_sz) (printTable file_sz) ↔
      file_sz < 2 ^ 31) := by
  refine ⟨⟨fun h => ?_, fun hlt => ?_⟩, ⟨fun h => ?_, fun hlt => ?_⟩⟩
  · rw [submit_to_sq] at h
    cases hallocated : allocated FILE_INFO_SIZE (blockCount 1024 file_sz) with
    | none =>
        rw [hallocated] at h
        exact absurd h not_tableRight_of_error
    | some n =>
        rw [hallocated] at h
        exact h.size_lt (k := 2 ^ 21) (by decide) (by decide)
  · rw [submit_to_sq_eq hlt]
    exact tableRight_of_lt (k := 2 ^ 21) (by decide) (by decide) hlt
  · exact TableRight.size_lt (k := 2 ^ 19) h (by decide) (by decide)
  · rw [readTable_eq hlt]
    exact tableRight_of_lt (k := 2 ^ 19) (by decide) (by decide) hlt

/-- For a file of 4 GiB the programs count no block, and write behind an empty array. -/
theorem four_gib_outside :
    ¬ TableRight (2 ^ 32) (submit_to_sq (2 ^ 32)) (blockCount 1024 (2 ^ 32))
      (read_from_cq (2 ^ 32)) ∧
    ¬ TableRight (2 ^ 32) (readTable (2 ^ 32)) (blockCount 4096 (2 ^ 32)) (printTable (2 ^ 32)) := by
  have hsubmit : submit_to_sq (2 ^ 32) = .error .undefined := by rfl
  have hread : readTable (2 ^ 32) = .error .undefined := by rfl
  rw [hsubmit, hread]
  exact ⟨not_tableRight_of_error, not_tableRight_of_error⟩

end Tables

end CLanguageLearning.Uring
