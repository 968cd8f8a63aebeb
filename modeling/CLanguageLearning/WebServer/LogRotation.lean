import CLanguageLearning.Foundation.Splitting
import CLanguageLearning.WebServer.LogLine
import Mathlib.Data.List.DropRight

/-!
# The files of the log

A synchronous log opens a file for each day and for each `m_split_lines` lines, and writes the date
into its name. A new day is noticed by the day of the month alone. As long as it is noticed, and the
names fit in their arrays, every line is in a file of its own date, and no file gets more lines than
it should.
-/

set_option autoImplicit false

namespace CLanguageLearning.WebServer

open CLanguageLearning.Foundation

namespace Log

/-- The date as it stands in the name of a file. -/
def date (tm : Tm) : String :=
  toString (tm.tm_year + 1900) ++ "_" ++ padded 2 (tm.tm_mon + 1) ++ "_" ++ padded 2 tm.tm_mday ++ "_"

/-- The `static` object before `init`. -/
def created : Log where
  dir_name := ""
  log_name := ""
  m_split_lines := 0
  m_log_buf_size := 0
  m_count := 0
  m_today := 0
  m_fp := none
  m_is_async := false
  files := []

/-- The size of `dir_name` and of `log_name`. -/
def NAME_SIZE : Nat := 128

/-- `init` of a synchronous log; `opened` tells whether `fopen` succeeds. -/
def init (file_name : String) (log_buf_size : Nat) (split_lines : Int) (my_tm : Tm) (opened : Bool) :
    Exec Log Bool := do
  modify fun s => { s with m_log_buf_size := log_buf_size, m_split_lines := split_lines }
  let s ← get
  if '/' ∈ file_name.toList then
    let log_name := String.ofList (file_name.toList.rtakeWhile (· ≠ '/'))
    let dir_name := String.ofList (file_name.toList.rdropWhile (· ≠ '/'))
    -- `strcpy` and `strncpy` write past the end of the arrays, or leave no terminator
    if NAME_SIZE ≤ log_name.utf8ByteSize ∨ NAME_SIZE ≤ dir_name.utf8ByteSize then throw .undefined
    else
      let log_full_name := snprintf 255 (dir_name ++ date my_tm ++ log_name)
      set { s with
        dir_name := dir_name
        log_name := log_name
        m_today := my_tm.tm_mday
        m_fp := if opened then some log_full_name else none }
      return opened
  else
    let log_full_name := snprintf 255 (date my_tm ++ file_name)
    set { s with
      m_today := my_tm.tm_mday
      m_fp := if opened then some log_full_name else none }
    return opened

/-- `write_log` of a synchronous log; `opened` tells whether an `fopen` in it succeeds. -/
def write_log (c : LogCall) (opened : Bool) : Exec Log Unit := do
  rotate c opened
  let log_str ← format c
  fputs log_str

/-- One call after the other. -/
def writeLogs (calls : List (LogCall × Bool)) : Exec Log Unit :=
  calls.forM fun call => write_log call.1 call.2

/-- The name of the `k`-th file of a date. -/
def fileName (s : Log) (tm : Tm) (k : Int) : String :=
  s.dir_name ++ date tm ++ s.log_name ++ if k = 0 then "" else "." ++ toString k

/-- The line of a call. -/
def lineOf (c : LogCall) : String := head c ++ c.text ++ "\n"

/-- A number that grows with the date. -/
def day (tm : Tm) : Int := (tm.tm_year * 12 + tm.tm_mon) * 32 + tm.tm_mday

/-- The line of a call in a file with the date of the call. -/
def Dated (s : Log) (entry : String × String) (c : LogCall) : Prop :=
  entry.2 = lineOf c ∧ ∃ k, entry.1 = fileName s c.my_tm k

/-- The lines of the calls are in files of their dates, and no file has more than `m_split_lines` of
them. -/
structure Rotated (s : Log) (calls : List LogCall) : Prop where
  dated : List.Forall₂ (Dated s) s.files calls
  split : ∀ file, ((s.files.map Prod.fst).count file : Int) ≤ s.m_split_lines

/-! ## Names -/

section Names

variable {s : Log} {tm tm' : Tm} {k k' : Int}

theorem digitsValue_padded {n : Int} (hn : 0 ≤ n) (k : Nat) :
    (digitsValue (bytes (padded k n)) : Int) = n := by
  have hzeros : ∀ j, digitsValue (List.replicate j 48) = 0 := fun j => by
    induction j with
    | zero => rfl
    | succ j ih => rw [List.replicate_succ', digitsValue_append, ih]; rfl
  rw [bytes_padded, digitsValue_append_list, hzeros, decimalInt, if_neg (not_lt.mpr hn),
    digitsValue_decimal]
  omega

theorem decimalInt_inj {m n : Int} (h : decimalInt m = decimalInt n) : m = n := by
  rw [← (isNumeral_decimalInt m).value, h, (isNumeral_decimalInt n).value]

theorem padded_inj {m n : Int} (hm : 0 ≤ m) (hn : 0 ≤ n) (j : Nat)
    (h : bytes (padded j m) = bytes (padded j n)) : m = n := by
  rw [← digitsValue_padded hm j, h, digitsValue_padded hn j]

theorem bytes_fileName (s : Log) (tm : Tm) (k : Int) :
    bytes (fileName s tm k) = bytes s.dir_name ++ (decimalInt (tm.tm_year + 1900) ++ 95 ::
      (bytes (padded 2 (tm.tm_mon + 1)) ++ 95 :: (bytes (padded 2 tm.tm_mday) ++ 95 ::
        (bytes s.log_name ++ bytes (if k = 0 then "" else "." ++ toString k))))) := by
  have hunderscore : bytes "_" = [95] := rfl
  simp only [fileName, date, bytes_append, bytes_toString, hunderscore, List.append_assoc,
    List.cons_append, List.nil_append]

/-- The number of a file is in its name. -/
theorem suffix_inj (h : bytes (if k = 0 then "" else "." ++ toString k) =
    bytes (if k' = 0 then "" else "." ++ toString k')) : k = k' := by
  have hnil : bytes "" = [] := rfl
  have hdot : ∀ j : Int, bytes ("." ++ toString j) = 46 :: decimalInt j := fun j => by
    rw [bytes_append, bytes_toString]
    rfl
  by_cases hk : k = 0
  · by_cases hk' : k' = 0
    · rw [hk, hk']
    · rw [if_pos hk, if_neg hk', hnil, hdot] at h
      cases h
  · by_cases hk' : k' = 0
    · rw [if_neg hk, if_pos hk', hnil, hdot] at h
      cases h
    · rw [if_neg hk, if_neg hk', hdot, hdot] at h
      exact decimalInt_inj (List.cons.inj h).2

/-- The name of a file tells its date and its number. -/
theorem fileName_inj (hmon : 0 ≤ tm.tm_mon) (hmon' : 0 ≤ tm'.tm_mon) (hmday : 0 ≤ tm.tm_mday)
    (hmday' : 0 ≤ tm'.tm_mday) (h : fileName s tm k = fileName s tm' k') :
    day tm = day tm' ∧ k = k' := by
  have hbytes := congrArg bytes h
  rw [bytes_fileName, bytes_fileName, List.append_cancel_left_eq] at hbytes
  have hnumber : ∀ n, (95 : UInt8) ∉ decimalInt n := notMem_decimalInt (by decide) (by decide)
  have hpadded : ∀ j n, (95 : UInt8) ∉ bytes (padded j n) :=
    notMem_bytes_padded (by decide) (by decide)
  obtain ⟨hyear, hbytes⟩ := append_cons_cancel (hnumber _) (hnumber _) hbytes
  obtain ⟨hmonth, hbytes⟩ := append_cons_cancel (hpadded _ _) (hpadded _ _) hbytes
  obtain ⟨hdate, hbytes⟩ := append_cons_cancel (hpadded _ _) (hpadded _ _) hbytes
  rw [List.append_cancel_left_eq] at hbytes
  have hyear' := decimalInt_inj hyear
  have hmonth' := padded_inj (by omega) (by omega) 2 hmonth
  have hdate' := padded_inj hmday hmday' 2 hdate
  refine ⟨?_, suffix_inj hbytes⟩
  rw [day, day]
  omega

end Names

/-! ## One call -/

/-- The number of the file that the call opens, if it opens one. -/
def opensFile (s : Log) (c : LogCall) : Option Int :=
  if s.m_today ≠ c.my_tm.tm_mday then some 0
  else if (s.m_count + 1).tmod s.m_split_lines = 0 then
    some ((s.m_count + 1).tdiv s.m_split_lines)
  else none

/-- A call that keeps the files in order. When it opens no file, it is on the date of the call before
it; a file that it opens can be opened, and has a name that fits in the arrays; the line fits in
`m_buf`. -/
structure Covered (s : Log) (last : Tm) (c : LogCall) (opened : Bool) : Prop where
  noticed : opensFile s c = none → day last = day c.my_tm
  named : ∀ k, opensFile s c = some k → opened = true ∧ (date c.my_tm).length ≤ 15 ∧
    (fileName s c.my_tm k).utf8ByteSize ≤ 254
  fits : (head c).utf8ByteSize < 48 ∧
    (head c).utf8ByteSize + c.text.utf8ByteSize + 1 < s.m_log_buf_size

/-- Every call of the run is such a call. -/
def CoveredRun : Log → Tm → List (LogCall × Bool) → Prop
  | _, _, [] => True
  | s, last, (c, opened) :: calls => Covered s last c opened ∧
      ∀ s', (write_log c opened).run s = .ok ((), s') → CoveredRun s' c.my_tm calls

section Call

variable {s : Log} {c : LogCall} {opened : Bool}

theorem snprintf_eq {size : Nat} {text : String} (h : text.length ≤ size - 1) :
    snprintf size text = text := by
  apply String.toList_inj.mp
  change (text.take (size - 1)).copy.toList = text.toList
  rw [String.toList_copy_take, List.take_of_length_le h]

theorem snprintf_name {name : String} (h : name.utf8ByteSize ≤ 254) : snprintf 255 name = name := by
  apply snprintf_eq
  have hlength : name.length = (bytes name).length := (length_bytes name).symm
  rw [hlength]
  exact (length_bytes_le name).trans h

theorem dateTail_eq {tm : Tm} (h : (date tm).length ≤ 15) : dateTail tm = date tm :=
  snprintf_eq h

/-- The names that `write_log` puts together, when they fit. -/
theorem names_eq {tm : Tm} {k : Int} (hdate : (date tm).length ≤ 15)
    (hname : (fileName s tm k).utf8ByteSize ≤ 254) :
    (k = 0 → snprintf 255 (s.dir_name ++ dateTail tm ++ s.log_name) = fileName s tm k) ∧
      (k ≠ 0 → snprintf 255 (s.dir_name ++ dateTail tm ++ s.log_name ++ "." ++ toString k) =
        fileName s tm k) := by
  rw [dateTail_eq hdate]
  constructor
  · intro hk
    have hfile : fileName s tm k = s.dir_name ++ date tm ++ s.log_name := by
      rw [fileName, if_pos hk, String.append_empty]
    rw [hfile] at hname ⊢
    exact snprintf_name hname
  · intro hk
    have hfile : fileName s tm k = s.dir_name ++ date tm ++ s.log_name ++ "." ++ toString k := by
      rw [fileName, if_neg hk]
      exact String.append_assoc.symm
    rw [hfile] at hname ⊢
    exact snprintf_name hname

theorem rotate_none (hsplit : 1 ≤ s.m_split_lines) (hopens : opensFile s c = none) (opened : Bool) :
    (rotate c opened).run s = .ok ((), { s with m_count := s.m_count + 1 }) := by
  have hsplit' : s.m_split_lines ≠ 0 := by omega
  rw [opensFile] at hopens
  split_ifs at hopens with hday hfull
  simp only [rotate, StateT.run_bind, StateT.run_modify, StateT.run_get, except_pure, ok_bind,
    run_ite, run_throw]
  rw [if_neg fun hzero => hsplit' hzero.2, if_neg (not_or.mpr ⟨hday, hfull⟩)]
  rfl

/-- The log after it has opened the `k`-th file of the date. -/
def reopened (s : Log) (tm : Tm) (k : Int) : Log := { s with
  m_count := if k = 0 then 0 else s.m_count + 1
  m_today := tm.tm_mday
  m_fp := some (fileName s tm k) }

theorem rotate_some {k : Int} (hsplit : 1 ≤ s.m_split_lines) (hcount : 0 ≤ s.m_count)
    (hfp : s.m_fp ≠ none) (hopens : opensFile s c = some k) (hdate : (date c.my_tm).length ≤ 15)
    (hname : (fileName s c.my_tm k).utf8ByteSize ≤ 254) :
    (rotate c true).run s = .ok ((), reopened s c.my_tm k) := by
  have hsplit' : s.m_split_lines ≠ 0 := by omega
  simp only [rotate, StateT.run_bind, StateT.run_modify, StateT.run_get, except_pure, ok_bind,
    run_ite, run_throw]
  rw [if_neg fun hzero => hsplit' hzero.2]
  rw [opensFile] at hopens
  by_cases hday : s.m_today = c.my_tm.tm_mday
  · rw [if_neg (not_not.mpr hday)] at hopens
    split_ifs at hopens with hfull
    -- only a new day gives a name without a number
    have hk : (s.m_count + 1).tdiv s.m_split_lines ≠ 0 := by
      intro hzero
      have hparts := Int.mul_tdiv_add_tmod (s.m_count + 1) s.m_split_lines
      rw [hzero, hfull] at hparts
      omega
    cases hopens
    rw [if_pos (Or.inr hfull), if_neg hfp, if_neg (not_not.mpr hday)]
    simp only [reopened, if_neg hk, (names_eq hdate hname).2 hk, ← hday]
    rfl
  · rw [if_pos hday] at hopens
    cases hopens
    rw [if_pos (Or.inl hday), if_neg hfp, if_pos hday]
    simp only [(names_eq hdate hname).1 rfl]
    rfl

theorem fputs_eq {name line : String} (h : s.m_fp = some name) :
    (fputs line).run s = .ok ((), { s with files := s.files ++ [(name, line)] }) := by
  rw [fputs, run_bind_of_ok (run_get s), h]
  rfl

/-- A call writes its line to the file that is open when it has been counted. -/
theorem write_log_run {t : Log} {name : String} (hrotate : (rotate c opened).run s = .ok ((), t))
    (hfits : (head c).utf8ByteSize < 48 ∧
      (head c).utf8ByteSize + c.text.utf8ByteSize + 1 < t.m_log_buf_size)
    (hname : t.m_fp = some name) :
    (write_log c opened).run s = .ok ((), { t with files := t.files ++ [(name, lineOf c)] }) := by
  have hformat : (format c).run t = .ok (lineOf c, t) := by
    rw [format_eq, if_neg (not_or.mpr ⟨not_le.mpr hfits.1, not_le.mpr hfits.2⟩), lineOf]
  rw [write_log, run_bind_of_ok hrotate, run_bind_of_ok hformat, fputs_eq hname]

end Call

/-! ## Runs -/

/-- The fields of a date are in their ranges. -/
def IsDate (tm : Tm) : Prop := (0 ≤ tm.tm_mon ∧ tm.tm_mon ≤ 11) ∧ 1 ≤ tm.tm_mday ∧ tm.tm_mday ≤ 31

/-- How often a file is among those that lines have been written to. -/
def linesIn (s : Log) (file : String) : Nat := (s.files.map Prod.fst).count file

/-- The open file is the `k`-th one of its date. Its number is the quotient of the lines counted, it
has no more lines than have been counted since, and all files so far have earlier dates or numbers
up to this one. -/
structure Rotating (s : Log) (tm : Tm) (k : Int) : Prop where
  split : 1 ≤ s.m_split_lines
  today : s.m_today = tm.tm_mday
  isDate : IsDate tm
  file : s.m_fp = some (fileName s tm k)
  nonneg : 0 ≤ k
  low : k * s.m_split_lines ≤ s.m_count
  high : s.m_count < k * s.m_split_lines + s.m_split_lines
  current : (linesIn s (fileName s tm k) : Int) ≤ s.m_count - k * s.m_split_lines + 1
  earlier : ∀ entry ∈ s.files, ∃ tm' k', entry.1 = fileName s tm' k' ∧ IsDate tm' ∧
    (day tm' < day tm ∨ day tm' = day tm ∧ k' ≤ k)
  few : ∀ file, (linesIn s file : Int) ≤ s.m_split_lines

section Runs

variable {s : Log} {tm : Tm} {c : LogCall} {opened : Bool} {k j : Int}

theorem date_eq_of_day {tm' : Tm} (h : IsDate tm) (h' : IsDate tm') (heq : day tm = day tm') :
    tm.tm_mday = tm'.tm_mday ∧ fileName s tm = fileName s tm' := by
  obtain ⟨⟨hmon, hmon11⟩, hmday, hmday31⟩ := h
  obtain ⟨⟨hmon', hmon11'⟩, hmday', hmday31'⟩ := h'
  rw [day, day] at heq
  have hm : tm.tm_mday = tm'.tm_mday := by omega
  have hmonth : tm.tm_mon = tm'.tm_mon := by omega
  have hyear : tm.tm_year = tm'.tm_year := by omega
  refine ⟨hm, ?_⟩
  funext k
  rw [fileName, fileName, date, date, hm, hmonth, hyear]

theorem Rotating.count_nonneg (h : Rotating s tm k) : 0 ≤ s.m_count :=
  (Int.mul_nonneg h.nonneg (Int.le_trans (by decide) h.split)).trans h.low

/-- A file that is opened comes behind the one that was open. -/
theorem Rotating.opens (h : Rotating s tm k) (hdate : IsDate c.my_tm)
    (hle : day tm ≤ day c.my_tm) (hopens : opensFile s c = some j) :
    (day tm < day c.my_tm ∨ day tm = day c.my_tm ∧ k < j) ∧ 0 ≤ j ∧
      (if j = 0 then 0 else s.m_count + 1) = j * s.m_split_lines := by
  have hcount := h.count_nonneg
  have hsplit := h.split
  rw [opensFile] at hopens
  by_cases hday : s.m_today = c.my_tm.tm_mday
  · rw [if_neg (not_not.mpr hday)] at hopens
    split_ifs at hopens with hfull
    cases hopens
    have hparts := Int.mul_tdiv_add_tmod (s.m_count + 1) s.m_split_lines
    rw [hfull, add_zero, mul_comm] at hparts
    have hlow := h.low
    -- the count has gone past that of the open file
    have hmore : k * s.m_split_lines <
        (s.m_count + 1).tdiv s.m_split_lines * s.m_split_lines := by omega
    have hk := lt_of_mul_lt_mul_right hmore (Int.le_trans (by decide) hsplit)
    have hpos := Int.lt_of_le_of_lt h.nonneg hk
    rw [if_neg hpos.ne']
    exact ⟨(lt_or_eq_of_le hle).imp_right fun heq => ⟨heq, hk⟩, hpos.le, hparts.symm⟩
  · rw [if_pos hday] at hopens
    cases hopens
    -- another day of the month is another date, and dates do not go back
    have hne : day tm ≠ day c.my_tm := fun heq =>
      hday (h.today.trans (date_eq_of_day (s := s) h.isDate hdate heq).1)
    refine ⟨Or.inl (lt_of_le_of_ne hle hne), Int.le_refl 0, ?_⟩
    rw [if_pos rfl, zero_mul]

/-- No line has been written to it. -/
theorem Rotating.fresh (h : Rotating s tm k) (hdate : IsDate c.my_tm)
    (hbehind : day tm < day c.my_tm ∨ day tm = day c.my_tm ∧ k < j) :
    linesIn s (fileName s c.my_tm j) = 0 := by
  rw [linesIn, List.count_eq_zero]
  intro hmem
  obtain ⟨entry, hentry, hfile⟩ := List.mem_map.mp hmem
  obtain ⟨tm', k', hname, hdate', hrank⟩ := h.earlier entry hentry
  rw [hname] at hfile
  obtain ⟨hday, rfl⟩ := fileName_inj hdate'.1.1 hdate.1.1 (Int.le_trans (by decide) hdate'.2.1)
    (Int.le_trans (by decide) hdate.2.1) hfile
  omega

/-- The lines of a file after another one has been written. -/
theorem linesIn_append {s' : Log} {name line : String} (hfiles : s'.files = s.files ++ [(name, line)])
    (file : String) : linesIn s' file = linesIn s file + if name = file then 1 else 0 := by
  rw [linesIn, hfiles, List.map_append, List.count_append]
  simp [linesIn, List.count_singleton]

theorem fileName_eq {s' : Log} (hdir : s'.dir_name = s.dir_name) (hlog : s'.log_name = s.log_name) :
    fileName s' = fileName s := by
  funext tm k
  rw [fileName, fileName, hdir, hlog]

/-- The open file after a line has been written to it. -/
theorem rotating_after {s' : Log} {line : String}
    (hdir : s'.dir_name = s.dir_name) (hlog : s'.log_name = s.log_name)
    (hsplit : s'.m_split_lines = s.m_split_lines)
    (hfiles : s'.files = s.files ++ [(fileName s tm k, line)]) (hpos : 1 ≤ s.m_split_lines)
    (htoday : s'.m_today = tm.tm_mday) (hdate : IsDate tm)
    (hfile : s'.m_fp = some (fileName s tm k)) (hk : 0 ≤ k)
    (hlow : k * s.m_split_lines ≤ s'.m_count)
    (hhigh : s'.m_count < k * s.m_split_lines + s.m_split_lines)
    (hlines : (linesIn s (fileName s tm k) : Int) ≤ s'.m_count - k * s.m_split_lines)
    (hearlier : ∀ entry ∈ s.files, ∃ tm' k', entry.1 = fileName s tm' k' ∧ IsDate tm' ∧
      (day tm' < day tm ∨ day tm' = day tm ∧ k' ≤ k))
    (hfew : ∀ file, (linesIn s file : Int) ≤ s.m_split_lines) : Rotating s' tm k := by
  have hname := fileName_eq hdir hlog
  have happend := linesIn_append hfiles
  constructor
  · rwa [hsplit]
  · exact htoday
  · exact hdate
  · rwa [hname]
  · exact hk
  · rwa [hsplit]
  · rwa [hsplit]
  · rw [hname, hsplit, happend, if_pos rfl]
    push_cast
    omega
  · intro entry hentry
    rw [hfiles, List.mem_append, List.mem_singleton] at hentry
    rw [hname]
    rcases hentry with hold | rfl
    · exact hearlier entry hold
    · exact ⟨tm, k, rfl, hdate, Or.inr ⟨rfl, Int.le_refl k⟩⟩
  · intro file
    rw [hsplit, happend]
    split_ifs with heq
    · subst heq
      push_cast
      omega
    · simpa using hfew file

/-- A call that opens no file. -/
theorem Rotating.same (h : Rotating s tm k) (hdate : IsDate c.my_tm)
    (hcovered : Covered s tm c opened) (hopens : opensFile s c = none) :
    s.m_fp = some (fileName s c.my_tm k) ∧ Rotating { s with
      m_count := s.m_count + 1
      files := s.files ++ [(fileName s c.my_tm k, lineOf c)] } c.my_tm k := by
  have hday := hcovered.noticed hopens
  have hname : fileName s tm = fileName s c.my_tm := (date_eq_of_day h.isDate hdate hday).2
  have hopen := h.file
  rw [hname] at hopen
  rw [opensFile] at hopens
  split_ifs at hopens with htoday hfull
  have hlow := h.low
  -- at the next multiple a file would have been opened
  have hhigh : s.m_count + 1 < k * s.m_split_lines + s.m_split_lines := by
    refine lt_of_le_of_ne h.high fun heq => hfull ?_
    rw [heq, ← add_one_mul, Int.mul_tmod_left]
  have hcurrent := h.current
  rw [hname] at hcurrent
  have hearlier := h.earlier
  rw [hday] at hearlier
  refine ⟨hopen, rotating_after (s := s) rfl rfl rfl rfl h.split (not_not.mp htoday) hdate hopen
    h.nonneg ?_ hhigh ?_ hearlier h.few⟩
  · show k * s.m_split_lines ≤ s.m_count + 1
    omega
  · show (linesIn s (fileName s c.my_tm k) : Int) ≤ s.m_count + 1 - k * s.m_split_lines
    omega

/-- A call that opens one. -/
theorem Rotating.next (h : Rotating s tm k) (hdate : IsDate c.my_tm) (hle : day tm ≤ day c.my_tm)
    (hopens : opensFile s c = some j) :
    Rotating { reopened s c.my_tm j with
      files := s.files ++ [(fileName s c.my_tm j, lineOf c)] } c.my_tm j := by
  obtain ⟨hbehind, hj, hcount⟩ := h.opens hdate hle hopens
  have hsplit := h.split
  rw [reopened, hcount]
  refine rotating_after (s := s) rfl rfl rfl rfl h.split rfl hdate rfl hj (Int.le_refl _) ?_ ?_ ?_
    h.few
  · show j * s.m_split_lines < j * s.m_split_lines + s.m_split_lines
    omega
  · rw [h.fresh hdate hbehind]
    simp
  · intro entry hentry
    obtain ⟨tm', k', hname, hdate', hrank⟩ := h.earlier entry hentry
    exact ⟨tm', k', hname, hdate', by omega⟩

/-- A call that meets the condition. -/
theorem Rotating.call (h : Rotating s tm k) (hdate : IsDate c.my_tm) (hle : day tm ≤ day c.my_tm)
    (hcovered : Covered s tm c opened) :
    ∃ s' k', (write_log c opened).run s = .ok ((), s') ∧ Rotating s' c.my_tm k' ∧
      fileName s' = fileName s ∧ s'.files = s.files ++ [(fileName s c.my_tm k', lineOf c)] := by
  cases hopens : opensFile s c with
  | none =>
      obtain ⟨hopen, hnext⟩ := h.same hdate hcovered hopens
      exact ⟨_, k, write_log_run (rotate_none h.split hopens opened) hcovered.fits hopen, hnext,
        fileName_eq rfl rfl, rfl⟩
  | some j =>
      obtain ⟨rfl, hshort, hname⟩ := hcovered.named j hopens
      have hfp : s.m_fp ≠ none := by
        rw [h.file]
        exact Option.some_ne_none _
      have hrotate := rotate_some h.split h.count_nonneg hfp hopens hshort hname
      exact ⟨_, j, write_log_run hrotate hcovered.fits rfl, h.next hdate hle hopens,
        fileName_eq rfl rfl, rfl⟩

/-- All calls of a run that meet the condition. -/
theorem Rotating.run (calls : List (LogCall × Bool)) (h : Rotating s tm k)
    (hdates : ∀ call ∈ calls, IsDate call.1.my_tm)
    (hle : ∀ call ∈ calls, day tm ≤ day call.1.my_tm)
    (hsorted : calls.Pairwise fun a b => day a.1.my_tm ≤ day b.1.my_tm)
    (hcovered : CoveredRun s tm calls) (past : List LogCall)
    (hpast : List.Forall₂ (Dated s) s.files past) :
    ∃ s', (writeLogs calls).run s = .ok ((), s') ∧ Rotated s' (past ++ calls.map Prod.fst) := by
  induction calls generalizing s tm k past with
  | nil => exact ⟨s, rfl, by rwa [List.map_nil, List.append_nil], h.few⟩
  | cons call calls ih =>
      obtain ⟨c, opened⟩ := call
      obtain ⟨hfirst, hmore⟩ := hcovered
      obtain ⟨hdate, hdates⟩ := List.forall_mem_cons.mp hdates
      obtain ⟨hlater, hsorted⟩ := List.pairwise_cons.mp hsorted
      obtain ⟨s', k', hrun, hnext, hname, hfiles⟩ :=
        h.call hdate (List.forall_mem_cons.mp hle).1 hfirst
      -- names do not change after `init`
      have hsame : Dated s' = Dated s := by
        funext entry call
        rw [Dated, Dated, hname]
      have hpast' : List.Forall₂ (Dated s') s'.files (past ++ [c]) := by
        rw [hfiles, hsame]
        exact List.rel_append hpast (.cons ⟨rfl, k', rfl⟩ .nil)
      obtain ⟨t, hrest, hrotated⟩ :=
        ih hnext hdates hlater hsorted (hmore s' hrun) (past ++ [c]) hpast'
      rw [List.append_assoc] at hrotated
      exact ⟨t, (run_bind_of_ok hrun _).trans hrest, hrotated⟩

/-- What `init` leaves when it succeeds. -/
theorem init_ok {file_name : String} {log_buf_size : Nat} {split_lines : Int}
    (hslash : '/' ∈ file_name.toList)
    (h : (init file_name log_buf_size split_lines tm opened).run created = .ok (true, s)) :
    s.m_split_lines = split_lines ∧ s.m_count = 0 ∧ s.m_today = tm.tm_mday ∧ s.files = [] ∧
      s.m_fp = some (snprintf 255 (s.dir_name ++ date tm ++ s.log_name)) := by
  simp only [init, StateT.run_bind, StateT.run_modify, StateT.run_get, except_pure, ok_bind,
    run_ite, run_throw, if_pos hslash] at h
  split at h
  · cases h
  · cases opened with
    | false => cases h
    | true =>
        cases h
        exact ⟨rfl, rfl, rfl, rfl, rfl⟩

theorem rotating_init {file_name : String} {log_buf_size : Nat} {split_lines : Int}
    (hslash : '/' ∈ file_name.toList) (hsplit : 1 ≤ split_lines) (hdate : IsDate tm)
    (h : (init file_name log_buf_size split_lines tm opened).run created = .ok (true, s))
    (hname : (fileName s tm 0).utf8ByteSize ≤ 254) : Rotating s tm 0 ∧ s.files = [] := by
  obtain ⟨hlines, hcount, htoday, hfiles, hfp⟩ := init_ok hslash h
  have hfile : fileName s tm 0 = s.dir_name ++ date tm ++ s.log_name := by
    rw [fileName, if_pos rfl, String.append_empty]
  have hnone : ∀ file, linesIn s file = 0 := fun file => by simp [linesIn, hfiles]
  rw [← hfile, snprintf_name hname] at hfp
  refine ⟨?_, hfiles⟩
  constructor
  · rwa [hlines]
  · exact htoday
  · exact hdate
  · exact hfp
  · exact Int.le_refl 0
  · simp [hcount]
  · simp only [hcount, hlines, zero_mul, zero_add]
    omega
  · simp [hnone, hcount]
  · simp [hfiles]
  · intro file
    rw [hnone, hlines]
    exact Int.le_trans (by decide) hsplit

/-- After `init`, calls that meet the condition write every line to a file of its own date, and no
more than `m_split_lines` of them to one file. -/
theorem rotated_of_covered {file_name : String} {log_buf_size : Nat} {split_lines : Int}
    (hslash : '/' ∈ file_name.toList) (hsplit : 1 ≤ split_lines)
    (hinit : (init file_name log_buf_size split_lines tm opened).run created = .ok (true, s))
    (hname : (fileName s tm 0).utf8ByteSize ≤ 254) (calls : List (LogCall × Bool))
    (hdates : ∀ t ∈ tm :: calls.map (·.1.my_tm), IsDate t)
    (hsorted : (tm :: calls.map (·.1.my_tm)).Pairwise fun t t' => day t ≤ day t')
    (hcovered : CoveredRun s tm calls) :
    ∃ s', (writeLogs calls).run s = .ok ((), s') ∧ Rotated s' (calls.map Prod.fst) := by
  rw [List.forall_mem_cons, List.forall_mem_map] at hdates
  rw [List.pairwise_cons, List.forall_mem_map, List.pairwise_map] at hsorted
  obtain ⟨hrotating, hfiles⟩ := rotating_init hslash hsplit hdates.1 hinit hname
  apply hrotating.run calls hdates.2 hsorted.1 hsorted.2 hcovered []
  rw [hfiles]
  exact List.Forall₂.nil

/-! ## Two months -/

def january : Tm := ⟨124, 0, 5, 12, 0, 0⟩

def february : Tm := ⟨124, 1, 5, 12, 0, 0⟩

/-- The log that `init` opens in January. -/
def inJanuary : Log :=
  ⟨"./", "log", 100, 200, 0, 5, some "./2024_01_05_log", false, []⟩

theorem init_january : (init "./log" 200 100 january true).run created = .ok (true, inJanuary) := by
  rfl

theorem fileName_january : fileName inJanuary january 0 = "./2024_01_05_log" := by decide

theorem rotated_of_covered_january :
    ∃ s', (writeLogs [(⟨1, "up", january, 0⟩, true)]).run inJanuary = .ok ((), s') ∧
      Rotated s' [⟨1, "up", january, 0⟩] := by
  refine rotated_of_covered (by decide) (by decide) init_january (by decide) _ ?_ ?_ ?_
  · simp [IsDate, january]
  · simp
  · refine ⟨⟨fun _ => rfl, fun k hopens => ?_, by decide⟩, fun _ _ => trivial⟩
    have hnone : opensFile inJanuary ⟨1, "up", january, 0⟩ = none := by decide
    rw [hnone] at hopens
    cases hopens

/-- A month later the day of the month is the same, and the line goes to the file of January. -/
theorem line_in_old_file :
    (init "./log" 200 100 january true).run created = .ok (true, inJanuary) ∧
      day january ≤ day february ∧
      ∃ s', (writeLogs [(⟨1, "up", february, 0⟩, true)]).run inJanuary = .ok ((), s') ∧
        ¬ Rotated s' [⟨1, "up", february, 0⟩] := by
  have hrotate := rotate_none (s := inJanuary) (c := ⟨1, "up", february, 0⟩) (by decide)
    (by decide) true
  refine ⟨init_january, by decide, _,
    run_bind_of_ok (write_log_run hrotate (by decide) rfl) _, ?_⟩
  rintro ⟨hdated, -⟩
  cases hdated with
  | cons hline _ =>
      obtain ⟨-, k, hname⟩ := hline
      have hfile : fileName inJanuary january 0 = fileName inJanuary february k :=
        fileName_january.trans hname
      exact absurd (fileName_inj (by decide) (by decide) (by decide) (by decide) hfile).1 (by decide)

end Runs

end Log

end CLanguageLearning.WebServer
