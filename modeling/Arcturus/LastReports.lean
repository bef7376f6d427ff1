import Arcturus.JsonDecode
import Arcturus.LastMile

/-!
The receipt of a report of the last mile. The data of a request is written again and must
be readable as a report; then its text is put into the store. The texts of errors of the
decoder, which follow a reply's own, are left out.
-/

namespace Arcturus.LastReports

open GoMaps JsonDecode JsonText LastMile StepRuns

structure ApiResponse where
  code : ℤ
  msg : String
  data : Json

section Decoding
variable (floats : Floats)

def apiResponseFields : List (StructField ApiResponse) :=
  [⟨"code", fun v s => (intValue v s.code).map fun code => { s with code }⟩,
   ⟨"msg", fun v s => (stringValue v s.msg).map fun msg => { s with msg }⟩,
   ⟨"data", fun v s => (interfaceValue floats v).map fun data => { s with data }⟩]

def lastCongestionFields : List (StructField LastCongestion) :=
  [⟨"count", fun v s => (intValue v s.count).map fun count => { s with count }⟩,
   ⟨"sum_rt", fun v s => (floatValue floats v s.sumRT).map fun sumRT => { s with sumRT }⟩,
   ⟨"avg_rt", fun v s => (floatValue floats v s.avgRT).map fun avgRT => { s with avgRT }⟩,
   ⟨"p95_rt", fun v s => (intValue v s.p95RT).map fun p95RT => { s with p95RT }⟩]

/-- A text that nothing reads must still be one. -/
def unreadField (name : String) : StructField LastTelemetry :=
  ⟨name, fun v s => (stringValue v "").map fun _ => s⟩

def lastTelemetryFields : List (StructField LastTelemetry) :=
  [⟨"lasts_congestion", fun v s =>
      (pointerMapValue (fun v => structValue (lastCongestionFields floats) v default) v
        s.lastsCongestion).map fun lastsCongestion => { s with lastsCongestion }⟩,
   ⟨"ip", fun v s => (stringValue v s.ip).map fun ip => { s with ip }⟩,
   unreadField "continent", unreadField "country", unreadField "city"]

def decodeLastTelemetry (v : Json) : Option LastTelemetry :=
  structValue (lastTelemetryFields floats) v default

/-- `json.Unmarshal` into a `LastTelemetry`. -/
def unmarshal (s : String) : Option LastTelemetry := (parse s).bind (decodeLastTelemetry floats)

/-- `ShouldBindJSON` reads the first value of the body. -/
def shouldBindJSON (body : String) : Option ApiResponse :=
  (parseFront body).bind fun v => structValue (apiResponseFields floats) v ⟨0, "", .null⟩

end Decoding

structure Reply where
  code : ℤ
  msg : String
  receivedCount : Option ℕ
  deriving DecidableEq

/-- The reply, and the key and value that are put into the store, if any. -/
def postLastReceive (floats : Floats) (publicIP body : String) :
    Reply × Option (String × String) :=
  match shouldBindJSON floats body with
  | none => (⟨400, "Request format error: ", none⟩, none)
  | some req =>
    -- what was decoded can always be encoded
    let reqDataBytes := render req.data
    match unmarshal floats reqDataBytes with
    | none => (⟨400, "Data field parsing failed: ", none⟩, none)
    | some lastStats =>
      (⟨200, "LastStats reported successfully", some lastStats.lastsCongestion.keys.length⟩,
        some ("/routing-last/" ++ publicIP, reqDataBytes))

/-- The text of a value is read as the value. -/
theorem unmarshal_render (floats : Floats) (v : Json) :
    unmarshal floats (render v) = decodeLastTelemetry floats v := by
  rw [unmarshal, parse_render, Option.bind_some]

/-- What is stored is the data of the request, and it is a report. -/
theorem exists_report {floats : Floats} {publicIP body key stored : String}
    (h : (postLastReceive floats publicIP body).2 = some (key, stored)) :
    ∃ req report, shouldBindJSON floats body = some req ∧ stored = render req.data ∧
      decodeLastTelemetry floats req.data = some report := by
  unfold postLastReceive at h
  split at h
  · simp at h
  · rename_i req hreq
    dsimp only at h
    split at h
    · simp at h
    · rename_i report hreport
      rw [unmarshal_render] at hreport
      simp only [Option.some.injEq, Prod.mk.injEq] at h
      exact ⟨req, report, hreq, h.2.symm, hreport⟩

theorem setField_noNil {floats : Floats} {s s' : LastTelemetry} {m : String × Json}
    (h : setField (lastTelemetryFields floats) s m = some s') (hs : s.lastsCongestion.NoNil)
    (hm : NoNullMember m.2) : s'.lastsCongestion.NoNil := by
  unfold setField at h
  split at h
  · cases Option.some.inj h
    exact hs
  · rename_i f hf
    have hmem := findField_mem hf
    simp only [lastTelemetryFields, List.mem_cons, List.not_mem_nil, or_false] at hmem
    rcases hmem with rfl | rfl | rfl | rfl | rfl
    · obtain ⟨entries, hentries, rfl⟩ := Option.map_eq_some_iff.mp h
      exact pointerMapValue_noNil _ hentries hs hm
    all_goals
      obtain ⟨_, -, rfl⟩ := Option.map_eq_some_iff.mp h
      exact hs

/-- A report has no nil entry if no object among the members of its data has a null. -/
theorem decodeLastTelemetry_noNil {floats : Floats} {v : Json} {report : LastTelemetry}
    (h : decodeLastTelemetry floats v = some report)
    (hv : ∀ ms, v = .obj ms → ∀ m ∈ ms, NoNullMember m.2) : report.lastsCongestion.NoNil := by
  unfold decodeLastTelemetry structValue at h
  split at h
  · cases Option.some.inj h
    exact GoMap.noNil_empty
  · rename_i ms
    have hstep : ∀ s m s', NoNullMember m.2 → s.lastsCongestion.NoNil →
        setField (lastTelemetryFields floats) s m = some s' → s'.lastsCongestion.NoNil :=
      fun s m s' hm hs hset => setField_noNil hset hs hm
    exact run_keeps_of_mem hstep (hv ms rfl) GoMap.noNil_empty h
  · simp at h

end Arcturus.LastReports
