import Arcturus.CityStatistics
import Arcturus.Delimited
import Arcturus.StepRuns

/-!
The access log that the data plane reads for its last-mile statistics. Every five seconds a
reader opens the file, takes the last 32 KiB of it and appends a record for each line; a
second loop drops old records and counts the others by city. The reader remembers nothing
of the file, so that a line counts as often as it is read. Reads that fail change nothing
and are left out.
-/

namespace Arcturus.AccessLog

open GoMaps StepRuns Delimited CityStatistics

def newline : UInt8 := 10

def carriageReturn : UInt8 := 13

structure Place where
  country : String
  province : String
  city : String
  deriving DecidableEq, Repr

/-- What a line depends on besides its text: the formats of times (in nanoseconds) and of
durations (in whole milliseconds), and the table of addresses. -/
structure Env where
  parseTime : List UInt8 → Option ℤ
  parseRT : List UInt8 → ℤ
  getIPInfo : List UInt8 → Option Place

def bytes (s : String) : List UInt8 := s.toList.map fun c => UInt8.ofNat c.toNat

/-- The first run of such bytes right behind the key, empty if there is none. -/
def extract (key : List UInt8) (ok : UInt8 → Bool) : List UInt8 → List UInt8
  | [] => []
  | b :: rest =>
    let found := ((b :: rest).drop key.length).takeWhile ok
    if key.isPrefixOf (b :: rest) ∧ found ≠ [] then found else extract key ok rest

/-- Not one of tab, newline, form feed, carriage return and space. -/
def nonSpace (b : UInt8) : Bool := b ≠ 9 ∧ b ≠ 10 ∧ b ≠ 12 ∧ b ≠ 13 ∧ b ≠ 32

/-- A digit or a point. -/
def numeric (b : UInt8) : Bool := 48 ≤ b ∧ b ≤ 57 ∨ b = 46

/-- The record of a line; a line without the three fields, or with unreadable ones, has
none. -/
def Env.lineRecord (env : Env) (line : List UInt8) : Option Record :=
  let tsStr := extract (bytes "time=") nonSpace line
  let ip := extract (bytes "client_ip=") nonSpace line
  let rtStr := extract (bytes "conn_rt_ms=") numeric line
  if tsStr = [] ∨ ip = [] ∨ rtStr = [] then none
  else
    match env.parseTime tsStr with
    | none => none
    | some ts =>
      match env.getIPInfo ip with
      | none => none
      | some ipInfo =>
        some { ts, clientIP := ip, connRT := env.parseRT rtStr, country := ipInfo.country,
               province := ipInfo.province, city := ipInfo.city }

/-- The scanner drops a carriage return at the end of a line. -/
def dropCR (line : List UInt8) : List UInt8 :=
  if line.getLast? = some carriageReturn then line.dropLast else line

def Env.record (env : Env) (line : List UInt8) : Option Record := env.lineRecord (dropCR line)

/-! ### The reader -/

/-- The scanner of a read that is under way: what it has read and not yet returned, and
whether it has met the end of the file. -/
structure Scanner where
  buf : List UInt8
  eof : Bool
  deriving DecidableEq, Repr

/-- The offset is where the part of the file begins that no line has been taken from by
the last read; it stays when the read is over. -/
structure Log where
  file : List UInt8
  records : List Record
  offset : ℕ
  reader : Option Scanner
  deriving DecidableEq, Repr

/-- A file that is already there when the reader starts. -/
def start (file : List UInt8) : Log := ⟨file, [], 0, none⟩

inductive Action where
  | grow (added : List UInt8)
  | openFile
  | fill (n : ℕ)
  | scan
  | calculate (now : ℤ)

def readSize : ℕ := 32 * 1024

def skipSize : ℕ := 1024

def maxToken : ℕ := 1048576

def startPos (file : List UInt8) : ℕ :=
  if readSize < file.length then file.length - readSize else 0

/-- Where the scan begins: behind the first newline of the first KiB, or behind that KiB
if there is none. -/
def scanStart (file : List UInt8) : ℕ :=
  if 0 < startPos file then
    let buf := (file.drop (startPos file)).take skipSize
    match cut newline buf with
    | some (front, _) => startPos file + front.length + 1
    | none => startPos file + buf.length
  else 0

/-- The scanner reads on when it holds no whole line. A line that fills the buffer ends
the scan. -/
def fillStep (s : Log) (r : Scanner) (n : ℕ) : Option Log :=
  if r.eof ∨ cut newline r.buf ≠ none then none
  else if maxToken ≤ r.buf.length then some { s with reader := none }
  else
    let unread := s.file.drop (s.offset + r.buf.length)
    if unread = [] then some { s with reader := some { r with eof := true } }
    else if 0 < n ∧ n ≤ unread.length ∧ r.buf.length + n ≤ maxToken then
      some { s with reader := some { r with buf := r.buf ++ unread.take n } }
    else none

/-- The scanner returns a line; at the end of the file it returns what is left and stops. -/
def scanStep (env : Env) (s : Log) (r : Scanner) : Option Log :=
  match cut newline r.buf with
  | some (line, rest) =>
    some { s with
      records := s.records ++ (env.record line).toList
      offset := s.offset + (line.length + 1)
      reader := some { r with buf := rest } }
  | none =>
    if r.eof then
      some { s with
        records := s.records ++ (if r.buf = [] then [] else (env.record r.buf).toList)
        offset := s.offset + r.buf.length
        reader := none }
    else none

def step (env : Env) (s : Log) : Action → Option Log
  | .grow added => some { s with file := s.file ++ added }
  | .openFile =>
    match s.reader with
    | some _ => none
    | none => some { s with offset := scanStart s.file, reader := some ⟨[], false⟩ }
  | .fill n =>
    match s.reader with
    | none => none
    | some r => fillStep s r n
  | .scan =>
    match s.reader with
    | none => none
    | some r => scanStep env s r
  | .calculate now =>
    -- the records that stay are the same for every order of the loop over the cities
    (calculateLastCongestion s.records now (GoMap.range _)).map fun res =>
      { s with records := res.1 }

/-- The number of lines in the file for a city. -/
def lineCount (env : Env) (file : List UInt8) (city : String) : ℕ :=
  ((file.splitOn newline).filterMap env.record).countP (·.city = city)

/-- No city is reported with more requests than it has lines. -/
def CountedOnce (env : Env) (s : Log) : Prop :=
  ∀ now order kept agg, calculateLastCongestion s.records now order = some (kept, agg) →
    ∀ city c, agg.val city = some c → c.count ≤ lineCount env s.file city

/-- The count of a city is the number of its records that stay. -/
theorem count_eq {records kept : List Record} {now : ℤ}
    {order : (accumulate (recent records now)).1.Range} {agg : Agg} {city : String}
    {c : LastCongestion} (h : calculateLastCongestion records now order = some (kept, agg))
    (hc : agg.val city = some c) : c.count = (recent records now).countP (·.city = city) := by
  obtain ⟨agg', hrun, -, hval⟩ := calculateLastCongestion_eq records now order
  cases Option.some.inj (h.symm.trans hrun)
  rw [hval, entryOf] at hc
  split at hc
  · cases hc
  · rename_i hne
    obtain ⟨c', hc', hsummary⟩ := finish_eq hne
    cases Option.some.inj (hc.symm.trans hc')
    rw [hsummary.count, rtsOf, List.length_map, List.countP_eq_length_filter]

theorem recent_sublist (records : List Record) (now : ℤ) :
    (recent records now).Sublist records := by
  simp only [recent]
  split
  · exact List.Sublist.refl _
  · exact List.filter_sublist

/-- A read begins where no line has been taken yet and at the start of a line, and the file
ends with a newline when the scanner meets its end. -/
def Clean (s : Log) : Action → Prop
  | .openFile => (s.offset = 0 ∨ s.offset + readSize ≤ s.file.length) ∧
      (s.file.length ≤ readSize ∨
        newline ∈ (s.file.drop (s.file.length - readSize)).take skipSize)
  | .scan => match s.reader with
    | none => True
    | some r => r.eof = true → newline ∉ r.buf → r.buf = []
  | _ => True

instance (s : Log) (a : Action) : Decidable (Clean s a) := by
  cases a with
  | openFile => exact inferInstanceAs (Decidable (_ ∧ _))
  | scan =>
    cases h : s.reader with
    | none => exact isTrue (by simp [Clean, h])
    | some r =>
      exact decidable_of_iff (r.eof = true → newline ∉ r.buf → r.buf = []) (by simp [Clean, h])
  | grow added => exact isTrue trivial
  | fill n => exact isTrue trivial
  | calculate now => exact isTrue trivial

/-- The lines up to the offset are whole, and the records come from different ones of
them. -/
structure Inv (env : Env) (s : Log) : Prop where
  offset_le : s.offset ≤ s.file.length
  buffer : ∀ r, s.reader = some r → r.buf <+: s.file.drop s.offset
  counted : ∃ lines, Complete newline (s.file.take s.offset) lines ∧
    s.records.Sublist (lines.filterMap env.record)

variable {env : Env} {s s' : Log}

theorem inv_start (env : Env) (file : List UInt8) : Inv env (start file) where
  offset_le := Nat.zero_le _
  buffer r hr := by cases hr
  counted := ⟨[], Or.inl ⟨rfl, rfl⟩, List.Sublist.refl _⟩

theorem Inv.countedOnce (h : Inv env s) : CountedOnce env s := by
  intro now order kept agg hrun city c hc
  obtain ⟨lines, hlines, hsub⟩ := h.counted
  have hfile : s.file.splitOn newline = lines ++ (s.file.drop s.offset).splitOn newline := by
    rw [← hlines.splitOn_append, List.take_append_drop]
  rw [count_eq hrun hc, lineCount, hfile, List.filterMap_append]
  refine (recent_sublist s.records now).countP_le.trans (hsub.countP_le.trans ?_)
  exact (List.sublist_append_left ..).countP_le

theorem Inv.grow (h : Inv env s) (added : List UInt8) :
    Inv env { s with file := s.file ++ added } where
  offset_le := h.offset_le.trans (List.length_append ▸ Nat.le_add_right ..)
  buffer r hr := by
    rw [List.drop_append_of_le_length h.offset_le]
    exact (h.buffer r hr).trans (List.prefix_append ..)
  counted := by
    rw [List.take_append_of_le_length h.offset_le]
    exact h.counted

theorem Inv.calculate (h : Inv env s) (now : ℤ) :
    Inv env { s with records := recent s.records now } where
  offset_le := h.offset_le
  buffer := h.buffer
  counted := by
    obtain ⟨lines, hlines, hsub⟩ := h.counted
    exact ⟨lines, hlines, (recent_sublist s.records now).trans hsub⟩

/-- A part right behind the offset. -/
theorem take_of_isPrefix {file front rest : List UInt8} {o : ℕ} (ho : o ≤ file.length)
    (h : front ++ rest <+: file.drop o) :
    file.take (o + front.length) = file.take o ++ front ∧ rest <+: file.drop (o + front.length) ∧
      o + front.length ≤ file.length := by
  obtain ⟨t, ht⟩ := h
  have hlen := congrArg List.length ht
  rw [List.length_append, List.length_append, List.length_drop] at hlen
  refine ⟨?_, ⟨t, ?_⟩, by omega⟩
  · rw [List.take_add, ← ht, List.append_assoc, List.take_left]
  · rw [← List.drop_drop, ← ht, List.append_assoc, List.drop_left]

theorem Inv.idle (h : Inv env s) : Inv env { s with reader := none } where
  offset_le := h.offset_le
  buffer r hr := by cases hr
  counted := h.counted

theorem Inv.fill (h : Inv env s) {r : Scanner} (hr : s.reader = some r) {n : ℕ}
    (hstep : fillStep s r n = some s') : Inv env s' := by
  have hbuf := h.buffer r hr
  simp only [fillStep] at hstep
  split at hstep
  · cases hstep
  · split at hstep
    · cases hstep
      exact h.idle
    · split at hstep
      · cases hstep
        refine ⟨h.offset_le, fun r' hr' => ?_, h.counted⟩
        cases hr'
        exact hbuf
      · obtain ⟨-, hs'⟩ := Option.ite_none_right_eq_some.mp hstep
        cases hs'
        refine ⟨h.offset_le, fun r' hr' => ?_, h.counted⟩
        cases hr'
        obtain ⟨t, ht⟩ := hbuf
        rw [← List.drop_drop, ← ht, List.drop_left]
        exact (List.prefix_append_right_inj _).mpr (List.take_prefix ..)

theorem Inv.scan (h : Inv env s) {r : Scanner} (hr : s.reader = some r)
    (hclean : Clean s .scan) (hstep : scanStep env s r = some s') : Inv env s' := by
  have hbuf := h.buffer r hr
  obtain ⟨lines, hlines, hsub⟩ := h.counted
  unfold scanStep at hstep
  cases hcut : cut newline r.buf with
  | none =>
    rw [hcut] at hstep
    obtain ⟨heof, hs'⟩ := Option.ite_none_right_eq_some.mp hstep
    rw [Clean, hr] at hclean
    have hnil : r.buf = [] := hclean heof (cut_eq_none_iff.mp hcut)
    cases hs'
    rw [hnil, if_pos rfl, List.append_nil]
    exact h.idle
  | some found =>
    obtain ⟨line, rest⟩ := found
    obtain ⟨hsplit, hline⟩ := cut_eq_some_iff.mp hcut
    have hfront : line ++ newline :: rest = (line ++ [newline]) ++ rest := by
      rw [List.append_assoc, List.singleton_append]
    rw [hcut] at hstep
    rw [hsplit, hfront] at hbuf
    obtain ⟨htake, hrest, hle⟩ := take_of_isPrefix h.offset_le hbuf
    rw [List.length_append, List.length_singleton] at htake hrest hle
    cases hstep
    refine ⟨hle, fun r' hr' => ?_, lines ++ [line], ?_, ?_⟩
    · cases hr'
      exact hrest
    · rw [htake]
      exact hlines.append hline
    · rw [List.filterMap_append]
      refine hsub.append ?_
      cases hrec : env.record line <;> simp [hrec]

/-- A clean read begins behind all lines that were taken, at the start of a line. -/
theorem Inv.openFile (h : Inv env s) (hclean : Clean s .openFile) :
    Inv env { s with offset := scanStart s.file, reader := some ⟨[], false⟩ } := by
  obtain ⟨hbehind, hboundary⟩ := hclean
  obtain ⟨lines, hlines, hsub⟩ := h.counted
  by_cases hsmall : s.file.length ≤ readSize
  · have hzero : scanStart s.file = s.offset := by
      have hoffset : s.offset = 0 := by omega
      have hpos : startPos s.file = 0 := if_neg (by omega)
      rw [scanStart, hpos, hoffset]
      rfl
    refine ⟨hzero ▸ h.offset_le, fun r hr => ?_, hzero ▸ h.counted⟩
    cases hr
    exact List.nil_prefix
  · have hpos : startPos s.file = s.file.length - readSize := if_pos (by omega)
    have hmem := hboundary.resolve_left hsmall
    rw [← hpos] at hmem
    cases hcut : cut newline ((s.file.drop (startPos s.file)).take skipSize) with
    | none => exact absurd hmem (cut_eq_none_iff.mp hcut)
    | some found =>
      obtain ⟨front, rest⟩ := found
      obtain ⟨hsplit, hfront⟩ := cut_eq_some_iff.mp hcut
      have hstart : scanStart s.file = startPos s.file + (front ++ [newline]).length := by
        simp only [scanStart, hcut, List.length_append, List.length_singleton]
        rw [if_pos (by omega), Nat.add_assoc]
      have hpre : (front ++ [newline]) ++ rest <+: s.file.drop (startPos s.file) := by
        rw [List.append_assoc, List.singleton_append, ← hsplit]
        exact List.take_prefix ..
      obtain ⟨htake, -, hle⟩ := take_of_isPrefix (by omega) hpre
      have hlater : s.file.take s.offset <+: s.file.take (scanStart s.file) :=
        List.take_prefix_take_left (by omega)
      rw [← hstart, ← List.append_assoc] at htake
      refine ⟨hstart ▸ hle, fun r hr => ?_,
        (s.file.take (startPos s.file) ++ front).splitOn newline, ?_, ?_⟩
      · cases hr
        exact List.nil_prefix
      · rw [htake]
        exact complete_concat ..
      · exact hsub.trans ((hlines.sublist (htake ▸ hlater)).filterMap _)

theorem Inv.step {a : Action} (h : Inv env s) (hclean : Clean s a)
    (hstep : step env s a = some s') : Inv env s' := by
  cases a with
  | grow added =>
    cases hstep
    exact h.grow added
  | openFile =>
    simp only [AccessLog.step] at hstep
    cases hr : s.reader with
    | some r => simp [hr] at hstep
    | none =>
      rw [hr] at hstep
      cases hstep
      exact h.openFile hclean
  | fill n =>
    simp only [AccessLog.step] at hstep
    cases hr : s.reader with
    | none => simp [hr] at hstep
    | some r =>
      rw [hr] at hstep
      exact h.fill hr hstep
  | scan =>
    simp only [AccessLog.step] at hstep
    cases hr : s.reader with
    | none => simp [hr] at hstep
    | some r =>
      rw [hr] at hstep
      exact h.scan hr hclean hstep
  | calculate now =>
    obtain ⟨⟨kept, agg⟩, hres, rfl⟩ := Option.map_eq_some_iff.mp hstep
    obtain ⟨agg', hrun, -⟩ := calculateLastCongestion_eq s.records now (GoMap.range _)
    cases Option.some.inj (hres.symm.trans hrun)
    exact h.calculate now

/-- As long as all reads are clean, no line is counted twice. -/
theorem counted_once {file : List UInt8} {actions : List Action}
    (hrun : run (step env) (start file) actions = some s)
    (hclean : AllSteps (step env) Clean (start file) actions) : CountedOnce env s :=
  (run_invariant (fun _ _ _ hs hc h => hs.step hc h) (inv_start env file) hclean
    hrun).countedOnce

/-- A table with one city, and lines that carry the time 0. -/
def oneCity : Env where
  parseTime _ := some 0
  parseRT _ := 12
  getIPInfo _ := some ⟨"Japan", "Tokyo", "Tokyo"⟩

def oneLine : List UInt8 :=
  bytes "time=2026-01-01T00:00:00Z client_ip=10.1.2.3 conn_rt_ms=12" ++ [newline]

/-- One read of the file, to its end. -/
def readOnce : List Action := [.openFile, .fill 59, .scan, .fill 1, .scan]

/-- A second line is written while the first one is half read. -/
def grownWhileRead : List Action :=
  [.openFile, .fill 30, .grow oneLine, .fill 29, .scan, .fill 59, .scan, .fill 1, .scan,
    .calculate 5000000000]

theorem counted_once_grownWhileRead : ∃ s,
    run (step oneCity) (start oneLine) grownWhileRead = some s ∧ s.records.length = 2 ∧
      CountedOnce oneCity s := by
  have hrun : (run (step oneCity) (start oneLine) grownWhileRead).map (·.records.length) =
      some 2 := by decide +kernel
  obtain ⟨s, hs, hlength⟩ := Option.map_eq_some_iff.mp hrun
  exact ⟨s, hs, hlength, counted_once hs (by decide +kernel)⟩

/-- Read again after five seconds, the only line of the file counts as two requests. -/
theorem line_counted_twice : ∃ s kept agg c,
    run (step oneCity) (start oneLine) (readOnce ++ readOnce) = some s ∧
    calculateLastCongestion s.records 5000000000 (GoMap.range _) = some (kept, agg) ∧
    agg.val "Tokyo" = some c ∧ c.count = 2 ∧ lineCount oneCity s.file "Tokyo" = 1 ∧
    ¬ CountedOnce oneCity s := by
  have hobs : (run (step oneCity) (start oneLine) (readOnce ++ readOnce)).map (fun s =>
      ((calculateLastCongestion s.records 5000000000 (GoMap.range _)).bind fun res =>
        (res.2.val "Tokyo").map (·.count), lineCount oneCity s.file "Tokyo")) =
      some (some 2, 1) := by
    decide +kernel
  obtain ⟨s, hs, hpair⟩ := Option.map_eq_some_iff.mp hobs
  obtain ⟨hcount, hlines⟩ := Prod.mk.inj hpair
  obtain ⟨⟨kept, agg⟩, hres, hcity⟩ := Option.bind_eq_some_iff.mp hcount
  obtain ⟨c, hc, hc2⟩ := Option.map_eq_some_iff.mp hcity
  refine ⟨s, kept, agg, c, hs, hres, hc, hc2, hlines, fun hone => ?_⟩
  have hle := hone _ _ _ _ hres _ c hc
  omega

end Arcturus.AccessLog
