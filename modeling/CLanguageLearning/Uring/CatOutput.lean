import CLanguageLearning.Foundation.CString
import CLanguageLearning.Uring.BlockTables

/-!
# What the two `cat` programs print

Both programs read a file into blocks with one vectored read and print the blocks. The memory of a
block is not initialised, so it may hold anything before the read; the read may fail, and it may
report less than the file, for instance because the file has shrunk.

The loops print every block in its full length, whatever the read has reported. So the output is what
has been read only if that is the whole file; and only the program without `io_uring` leaves at an
error. `cat_output_right_iff` is about both.
-/

set_option autoImplicit false

namespace CLanguageLearning.Uring

open CLanguageLearning.Foundation

/-- `struct iovec`, with the bytes of the block that `iov_base` points to. -/
structure Iovec where
  iov_base : List UInt8
  iov_len : Nat
  deriving DecidableEq, Repr

/-- What the kernel answers to a vectored read: an error number, or the bytes it has read. -/
inductive Answer where
  | error (errno : Nat)
  | bytes (data : List UInt8)
  deriving DecidableEq, Repr

/-- The bytes that are reported as read. -/
def Answer.reported : Answer → List UInt8
  | error _ => []
  | bytes data => data

/-- What a program has printed. -/
structure Printed where
  stdout : List UInt8
  stderr : List UInt8
  deriving DecidableEq, Repr

/-- The blocks behind a vectored read of `data`: they are filled one after another. -/
def scatter : List UInt8 → List Iovec → List Iovec
  | _, [] => []
  | data, v :: iovecs =>
      ⟨data.take v.iov_len ++ v.iov_base.drop (data.take v.iov_len).length, v.iov_len⟩ ::
        scatter (data.drop v.iov_len) iovecs

/-- The bytes of the blocks, each as far as its length. -/
def gather (iovecs : List Iovec) : List UInt8 := iovecs.flatMap fun v => v.iov_base.take v.iov_len

/-- `output_to_console` and `out_to_console`. The blocks are so short that their length is the same
as an `int`. -/
def output_to_console : List UInt8 → Nat → Except Halt (List UInt8)
  | _, 0 => .ok []
  | [], _ + 1 => .error .undefined
  | c :: buf, len + 1 => (output_to_console buf len).map (c :: ·)

/-- The loop over the blocks from `i` on, so many of them. -/
def printFrom (iovecs : List Iovec) : Nat → Nat → Except Halt (List UInt8)
  | 0, _ => .ok []
  | n + 1, i =>
      match iovecs[i]? with
      | some v =>
          match output_to_console v.iov_base v.iov_len with
          | .ok block => (printFrom iovecs n (i + 1)).map (block ++ ·)
          | .error e => .error e
      | none => .error .undefined

/-- `for (int i = 0; i < blocks; i++) output_to_console(iovecs[i].iov_base, iovecs[i].iov_len);` -/
def printBlocks (iovecs : List Iovec) (blocks : Int) : Except Halt (List UInt8) :=
  printFrom iovecs blocks.toNat 0

/-- A table with the memory that `posix_memalign` has returned for each of its blocks. -/
def withMemory {BLOCK_SZ : Nat} (table : List Nat) (memory : Nat → Vector UInt8 BLOCK_SZ) :
    List Iovec :=
  table.mapIdx fun i len => ⟨(memory i).toList, len⟩

section Programs

variable (strerror : Nat → List UInt8)

/-- `struct file_info`. -/
structure FileInfo where
  file_sz : Nat
  iovecs : List Iovec

/-- `struct io_uring_cqe`, with the object that `user_data` points to. -/
structure Cqe where
  user_data : FileInfo
  res : Int

/-- The completion of a request. -/
def complete (fi : FileInfo) : Answer → Cqe
  | .error errno => ⟨fi, -errno⟩
  | .bytes data => ⟨{ fi with iovecs := scatter data fi.iovecs }, data.length⟩

/-- `read_from_cq` of `use-io_uring-cat.c`, for the completions from the head of the queue to its
tail. -/
def printCompletions : List Cqe → Except Halt Printed
  | [] => .ok ⟨[], []⟩
  | cqe :: queue =>
      let stderr :=
        if cqe.res < 0 then bytes "Error: " ++ strerror cqe.res.natAbs ++ bytes "\n" else []
      -- printed after an error as well
      match printBlocks cqe.user_data.iovecs (blockCount 1024 cqe.user_data.file_sz) with
      | .error e => .error e
      | .ok block => (printCompletions queue).map fun rest =>
          ⟨block ++ rest.stdout, stderr ++ rest.stderr⟩

/-- One file in `use-io_uring-cat.c`: `submit_to_sq`, and `read_from_cq` for its completion. -/
def catUring (file_sz : Nat) (memory : Nat → Vector UInt8 1024) (answer : Answer) :
    Except Halt Printed := do
  let table ← submit_to_sq file_sz
  printCompletions strerror [complete ⟨file_sz, withMemory table memory⟩ answer]

/-- `read_and_print_file` of `no-use-io_uring-cat.c`, with the value it returns. -/
def read_and_print_file (file_size : Nat) (memory : Nat → Vector UInt8 4096) (answer : Answer) :
    Except Halt (Printed × Nat) := do
  let table ← readTable file_size
  let iovecs := withMemory table memory
  match answer with
  | .error errno => return (⟨[], bytes "readv error: " ++ strerror errno ++ bytes "\n"⟩, 1)
  | .bytes data =>
      -- the number that `readv` returns is not looked at again
      let stdout ← printBlocks (scatter data iovecs) (blockCount 4096 file_size)
      return (⟨stdout, []⟩, 0)

end Programs

/-- The program prints exactly what the kernel has reported as read. -/
def OutputRight (output : Except Halt Printed) (answer : Answer) : Prop :=
  output.map Printed.stdout = .ok answer.reported

/-- The read reports the whole file, or it fails for a file without bytes. -/
def Answer.Whole (file_sz : Nat) : Answer → Prop
  | error _ => file_sz = 0
  | bytes data => data.length = file_sz

/-- The read reports the whole file, or it fails. -/
def Answer.WholeOrError (file_sz : Nat) : Answer → Prop
  | error _ => True
  | bytes data => data.length = file_sz

section Blocks

variable {iovecs : List Iovec} {data buf : List UInt8} {table : List Nat} {BLOCK_SZ n i len : Nat}

/-- No length goes beyond its block. -/
def Fits (iovecs : List Iovec) : Prop := ∀ v ∈ iovecs, v.iov_len ≤ v.iov_base.length

theorem output_to_console_run (h : len ≤ buf.length) :
    output_to_console buf len = .ok (buf.take len) := by
  induction buf generalizing len with
  | nil =>
      cases Nat.le_zero.mp h
      rfl
  | cons c buf ih =>
      cases len with
      | zero => rfl
      | succ len =>
          rw [output_to_console, ih (Nat.le_of_succ_le_succ h)]
          rfl

@[simp] theorem gather_cons (v : Iovec) (iovecs : List Iovec) :
    gather (v :: iovecs) = v.iov_base.take v.iov_len ++ gather iovecs := List.flatMap_cons ..

theorem Fits.tail {v : Iovec} (h : Fits (v :: iovecs)) : Fits iovecs :=
  fun w hw => h w (List.mem_cons_of_mem v hw)

/-- The loop prints the blocks one after another. -/
theorem printFrom_run (hfits : Fits iovecs) (h : i + n = iovecs.length) :
    printFrom iovecs n i = .ok (gather (iovecs.drop i)) := by
  induction n generalizing i with
  | zero =>
      have hend : iovecs.length ≤ i := h.ge
      rw [printFrom, List.drop_eq_nil_of_le hend]
      rfl
  | succ n ih =>
      have hin : i < iovecs.length := by omega
      have hblock := output_to_console_run (hfits _ (List.getElem_mem hin))
      rw [printFrom, List.getElem?_eq_getElem hin]
      simp only [hblock]
      rw [ih (by omega), List.drop_eq_getElem_cons hin, gather_cons]
      rfl

theorem length_gather (hfits : Fits iovecs) :
    (gather iovecs).length = (iovecs.map Iovec.iov_len).sum := by
  induction iovecs with
  | nil => rfl
  | cons v iovecs ih =>
      have hv := hfits v List.mem_cons_self
      simp [ih hfits.tail, hv]

theorem length_scatter (data : List UInt8) (iovecs : List Iovec) :
    (scatter data iovecs).length = iovecs.length := by
  induction iovecs generalizing data with
  | nil => rfl
  | cons v iovecs ih => simp [scatter, ih]

theorem Fits.scatter (h : Fits iovecs) (data : List UInt8) : Fits (scatter data iovecs) := by
  induction iovecs generalizing data with
  | nil => exact h
  | cons v iovecs ih =>
      have hv := h v List.mem_cons_self
      refine List.forall_mem_cons.mpr ⟨?_, ih h.tail _⟩
      simp only [List.length_append, List.length_take, List.length_drop]
      omega

/-- Behind the bytes that have been read the blocks are as they were. -/
theorem gather_scatter (hfits : Fits iovecs) (hdata : data.length ≤ (gather iovecs).length) :
    gather (scatter data iovecs) = data ++ (gather iovecs).drop data.length := by
  induction iovecs generalizing data with
  | nil =>
      cases List.length_eq_zero_iff.mp (Nat.le_zero.mp hdata)
      rfl
  | cons v iovecs ih =>
      have hv := hfits v List.mem_cons_self
      have hlen : (v.iov_base.take v.iov_len).length = v.iov_len := List.length_take_of_le hv
      rw [gather_cons, List.length_append, hlen] at hdata
      have hshort : (data.drop v.iov_len).length ≤ (gather iovecs).length := by
        rw [List.length_drop]
        omega
      have hrest := ih hfits.tail hshort
      rw [scatter, gather_cons, gather_cons, hrest]
      rcases Nat.le_total data.length v.iov_len with hle | hle
      -- the data end in this block
      · rw [List.take_of_length_le hle, List.drop_eq_nil_of_le hle, List.take_append,
          List.take_of_length_le hle, List.drop_append_of_le_length (hle.trans hlen.ge), List.drop_take]
        simp
      · have htake : (data.take v.iov_len).length = v.iov_len := List.length_take_of_le hle
        have hdrop : (v.iov_base.take v.iov_len).drop data.length = [] :=
          List.drop_eq_nil_of_le (hlen.le.trans hle)
        rw [List.take_append_of_le_length htake.ge, List.take_take, min_self, ← List.append_assoc,
          List.take_append_drop, List.drop_append, hdrop, hlen, List.length_drop]
        rfl

theorem map_iov_len (table : List Nat) (memory : Nat → Vector UInt8 BLOCK_SZ) :
    (withMemory table memory).map Iovec.iov_len = table := by
  apply List.ext_getElem
  · simp [withMemory]
  · intro i hi _
    simp [withMemory]

theorem fits_withMemory (hle : ∀ len ∈ table, len ≤ BLOCK_SZ)
    (memory : Nat → Vector UInt8 BLOCK_SZ) : Fits (withMemory table memory) := by
  intro v hv
  obtain ⟨i, hi, rfl⟩ := List.mem_mapIdx.mp hv
  simpa using hle _ (List.getElem_mem hi)

end Blocks

section Output

variable {BLOCK_SZ file_sz k : Nat} {table : List Nat} {answer : Answer}

/-- What the blocks of a file hold and what is printed of them, before a read and behind it. -/
theorem printBlocks_run (hsize : 0 < BLOCK_SZ) (hk : 2 ^ 31 = BLOCK_SZ * k)
    (hlt : file_sz < 2 ^ 31)
    (hfill : fillTable BLOCK_SZ (blocksOf BLOCK_SZ file_sz) file_sz = .ok table)
    (memory : Nat → Vector UInt8 BLOCK_SZ) :
    (gather (withMemory table memory)).length = file_sz ∧
    printBlocks (withMemory table memory) (blockCount BLOCK_SZ file_sz) =
      .ok (gather (withMemory table memory)) ∧
    ∀ data : List UInt8, data.length ≤ file_sz →
      printBlocks (scatter data (withMemory table memory)) (blockCount BLOCK_SZ file_sz) =
        .ok (data ++ (gather (withMemory table memory)).drop data.length) := by
  obtain ⟨hlength, hsum⟩ := fillLoop_ok hsize hfill
  have hfits := fits_withMemory (fillLoop_le hfill) memory
  have hgather : (gather (withMemory table memory)).length = file_sz := by
    rw [length_gather hfits, map_iov_len, hsum]
  have hcount : blockCount BLOCK_SZ file_sz = (withMemory table memory).length := by
    rw [(blockCount_eq_iff hsize hk).mpr hlt, withMemory, List.length_mapIdx, hlength]
  refine ⟨hgather, ?_, fun data hdata => ?_⟩
  · rw [hcount]
    exact printFrom_run hfits (Nat.zero_add _)
  · rw [hcount, ← gather_scatter hfits (hgather ▸ hdata), ← length_scatter data]
    exact printFrom_run (hfits.scatter data) (Nat.zero_add _)

/-- The blocks are printed in their full length by `use-io_uring-cat.c`. -/
theorem catUring_run (strerror : Nat → List UInt8) (hlt : file_sz < 2 ^ 31)
    (memory : Nat → Vector UInt8 1024) :
    ∃ old : List UInt8, old.length = file_sz ∧
      (∀ errno, (catUring strerror file_sz memory (.error errno)).map Printed.stdout = .ok old) ∧
      ∀ data : List UInt8, data.length ≤ file_sz →
        (catUring strerror file_sz memory (.bytes data)).map Printed.stdout =
          .ok (data ++ old.drop data.length) := by
  have hroom : 0 + blocksOf 1024 file_sz ≤ blocksOf 1024 file_sz := (Nat.zero_add _).le
  obtain ⟨table, hfill⟩ := fillLoop_run (by decide) (Nat.lt_succ_self file_sz) hroom
  have hsubmit : submit_to_sq file_sz = .ok table := (submit_to_sq_eq hlt).trans hfill
  obtain ⟨hold, hbefore, hbehind⟩ :=
    printBlocks_run (k := 2 ^ 21) (by decide) (by decide) hlt hfill memory
  refine ⟨gather (withMemory table memory), hold, fun errno => ?_, fun data hdata => ?_⟩
  · simp [catUring, hsubmit, complete, printCompletions, hbefore, Except.map]
  · simp [catUring, hsubmit, complete, printCompletions, hbehind data hdata, Except.map]

/-- And by `no-use-io_uring-cat.c`, unless the read fails. -/
theorem read_and_print_file_run (strerror : Nat → List UInt8) (hlt : file_sz < 2 ^ 31)
    (memory : Nat → Vector UInt8 4096) :
    ∃ old : List UInt8, old.length = file_sz ∧
      (∀ errno, read_and_print_file strerror file_sz memory (.error errno) =
        .ok (⟨[], bytes "readv error: " ++ strerror errno ++ bytes "\n"⟩, 1)) ∧
      ∀ data : List UInt8, data.length ≤ file_sz →
        read_and_print_file strerror file_sz memory (.bytes data) =
          .ok (⟨data ++ old.drop data.length, []⟩, 0) := by
  have hroom : 0 + blocksOf 4096 file_sz ≤ blocksOf 4096 file_sz := (Nat.zero_add _).le
  obtain ⟨table, hfill⟩ := fillLoop_run (by decide) (Nat.lt_succ_self file_sz) hroom
  have hread : readTable file_sz = .ok table := (readTable_eq hlt).trans hfill
  obtain ⟨hold, -, hbehind⟩ :=
    printBlocks_run (k := 2 ^ 19) (by decide) (by decide) hlt hfill memory
  refine ⟨gather (withMemory table memory), hold, fun errno => ?_, fun data hdata => ?_⟩
  · simp [read_and_print_file, hread]
  · simp [read_and_print_file, hread, hbehind data hdata]

/-- Behind the bytes that have been read nothing is printed only if they are the whole file. -/
theorem append_drop_eq_iff {data old : List UInt8} (hold : old.length = file_sz)
    (hdata : data.length ≤ file_sz) :
    data ++ old.drop data.length = data ↔ data.length = file_sz := by
  rw [List.append_right_eq_self, List.drop_eq_nil_iff, hold]
  exact ⟨fun h => Nat.le_antisymm hdata h, fun h => h.ge⟩

theorem catUring_right_iff (strerror : Nat → List UInt8) (hlt : file_sz < 2 ^ 31)
    (hread : answer.reported.length ≤ file_sz)
    (memory : Nat → Vector UInt8 1024) :
    OutputRight (catUring strerror file_sz memory answer) answer ↔ answer.Whole file_sz := by
  obtain ⟨old, hold, herror, hbytes⟩ := catUring_run strerror hlt memory
  cases answer with
  | error errno =>
      rw [OutputRight, herror, Except.ok.injEq, Answer.Whole, ← hold]
      exact List.length_eq_zero_iff.symm
  | bytes data =>
      rw [OutputRight, hbytes data hread, Except.ok.injEq]
      exact append_drop_eq_iff hold hread

theorem read_and_print_file_right_iff (strerror : Nat → List UInt8) (hlt : file_sz < 2 ^ 31)
    (hread : answer.reported.length ≤ file_sz) (memory : Nat → Vector UInt8 4096) :
    OutputRight ((read_and_print_file strerror file_sz memory answer).map Prod.fst) answer ↔
      answer.WholeOrError file_sz := by
  obtain ⟨old, hold, herror, hbytes⟩ := read_and_print_file_run strerror hlt memory
  cases answer with
  | error errno =>
      rw [OutputRight, herror]
      exact iff_of_true rfl trivial
  | bytes data =>
      rw [OutputRight, hbytes data hread]
      change (Except.ok (data ++ old.drop data.length) : Except Halt (List UInt8)) = .ok data ↔ _
      rw [Except.ok.injEq]
      exact append_drop_eq_iff hold hread

/-- For every file of less than 2³¹ bytes, whatever memory its blocks are given and whatever the
kernel answers: the programs print exactly what is reported as read if and only if that is the whole
file. With `no-use-io_uring-cat.c` the read may fail as well, with `use-io_uring-cat.c` only for a
file without bytes. -/
theorem cat_output_right_iff (strerror : Nat → List UInt8) (hlt : file_sz < 2 ^ 31)
    (hread : answer.reported.length ≤ file_sz)
    (memory : Nat → Vector UInt8 1024) (memory' : Nat → Vector UInt8 4096) :
    (OutputRight (catUring strerror file_sz memory answer) answer ↔ answer.Whole file_sz) ∧
    (OutputRight ((read_and_print_file strerror file_sz memory' answer).map Prod.fst) answer ↔
      answer.WholeOrError file_sz) :=
  ⟨catUring_right_iff strerror hlt hread memory,
    read_and_print_file_right_iff strerror hlt hread memory'⟩

/-- A file of two bytes, read as a whole. -/
theorem cat_output_right_iff_two :
    OutputRight (catUring (fun _ => bytes "Input/output error") 2
      (fun _ => Vector.replicate 1024 0) (.bytes [104, 105])) (.bytes [104, 105]) :=
  (cat_output_right_iff _ (by decide) (by decide) _ fun _ => Vector.replicate 4096 0).1.mpr rfl

/-- Of two bytes one is read, or none with an error: bytes are printed that nobody has read. -/
theorem cat_prints_unread :
    ¬ OutputRight (catUring (fun _ => bytes "Input/output error") 2
      (fun _ => Vector.replicate 1024 0) (.bytes [104])) (.bytes [104]) ∧
    ¬ OutputRight (catUring (fun _ => bytes "Input/output error") 2
      (fun _ => Vector.replicate 1024 0) (.error 5)) (.error 5) ∧
    ¬ OutputRight ((read_and_print_file (fun _ => bytes "Input/output error") 2
      (fun _ => Vector.replicate 4096 0) (.bytes [104])).map Prod.fst) (.bytes [104]) := by
  refine ⟨fun h => ?_, fun h => ?_, fun h => ?_⟩
  · cases (catUring_right_iff _ (by decide) (by decide) _).mp h
  · cases (catUring_right_iff _ (by decide) (by decide) _).mp h
  · cases (read_and_print_file_right_iff _ (by decide) (by decide) _).mp h

end Output

end CLanguageLearning.Uring
