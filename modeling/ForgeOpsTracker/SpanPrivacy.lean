import ForgeOpsTracker.Spans

/-! Which facts about a span `append_span` lets out under strict privacy. -/

namespace ForgeOps.Spans
open StrictPrivacy JsonText

/-- The `db.system` that says how statements are masked: the first one that is not blank. -/
def governingSystem (data : Data) : Option Bytes :=
  data.findSome? fun (key, value) => if key = some systemKey then lowercaseTrimmed value else none

/-- The data pairs as they may be sent: masked statements and systems in their one spelling. -/
def releasedData (data : Data) : List (Bytes × Bytes) :=
  data.filterMap fun (key, value) =>
    if key = some statementKey then
      (SqlStatement.maskForSystem value (governingSystem data)).map fun statement =>
        (statementKey, statement)
    else if key = some systemKey then (lowercaseTrimmed value).map fun system => (systemKey, system)
    else none

/-- Two spans that strict privacy does not tell apart. -/
structure SameReleased (a b : Span) : Prop where
  id : a.id = b.id
  parent : a.parent = b.parent
  kind : normalizeKind a.kind = normalizeKind b.kind
  startedAt : a.startedAtUnixMs = b.startedAtUnixMs
  duration : a.durationMs = b.durationMs
  name : a.name.map spanName = b.name.map spanName
  data : releasedData a.data = releasedData b.data

theorem dbSystem_eq (data : Data) : dbSystem data {} = governingSystem data := by
  have hpairs : data = data.zipIdx.map Prod.fst := (List.zipIdx_map_fst 0 data).symm
  rw [governingSystem, dbSystem]
  conv_rhs => rw [hpairs]
  rw [List.findSome?_map]
  congr 1
  funext ⟨⟨key, value⟩, i⟩
  simp

/-- The loop over the pairs writes what is released, and nothing for any other pair. -/
theorem dataPairs_strict (data : Data) : dataPairs true true (governingSystem data) data {} =
    (releasedData data).map fun pair => jsonString pair.1 ++ ascii ":" ++ jsonString pair.2 := by
  have hpairs : data = data.zipIdx.map Prod.fst := (List.zipIdx_map_fst 0 data).symm
  generalize hsystem : governingSystem data = system
  rw [releasedData, dataPairs, hsystem, List.map_filterMap]
  conv_rhs => rw [hpairs, List.filterMap_map]
  congr 1
  funext ⟨⟨key, value⟩, i⟩
  have hne : systemKey ≠ statementKey := by decide
  simp only [Function.comp_apply, dataValue]
  by_cases hstatement : key = some statementKey
  · subst hstatement
    cases SqlStatement.maskForSystem value system <;> simp
  by_cases hkey : key = some systemKey
  · subst hkey
    cases lowercaseTrimmed value <;> simp [hne]
  · simp [hstatement, hkey]

/-- Under strict privacy two spans that agree on what is released are written with the same
bytes. -/
theorem spanJson_released {config : Configuration}
    (hstrict : config.strictPrivacy = true) {a b : Span} (h : SameReleased a b) :
    spanJson config a {} = spanJson config b {} := by
  have hname : ∀ span : Span, ((span.name.map spanName).or span.name).getD [] =
      (span.name.map spanName).getD [] := by
    intro span
    cases span.name <;> rfl
  have hdata : ∀ span : Span, dataPairs true true (dbSystem span.data {}) span.data {} =
      (releasedData span.data).map fun pair =>
        jsonString pair.1 ++ ascii ":" ++ jsonString pair.2 := fun span => by
    rw [dbSystem_eq, dataPairs_strict]
  simp only [spanJson, hstrict, and_self, if_true, Bool.true_or, hname, hdata]
  rw [h.id, h.parent, h.kind, h.startedAt, h.duration, h.name, h.data]

/-- A query for Jane. -/
def janeSpan : Span where
  id := ⟨ascii "53ce929d0e0e4736", rfl, rfl, rfl⟩
  parent := none
  name := some (ascii "GET https://db.local/jane")
  kind := some (ascii "database")
  startedAtUnixMs := 0
  durationMs := 0
  data := [(some (ascii "user"), some (ascii "jane")),
    (some statementKey, some (ascii "SELECT 'jane'")), (some systemKey, some (ascii " MySQL"))]

/-- One for Bob, without his name among the data. -/
def bobSpan : Span :=
  { janeSpan with
    name := some (ascii "get https://bob@db.local/bob?x=1")
    data := [(some statementKey, some (ascii "SELECT 'bob'")),
      (some systemKey, some (ascii "mysql"))] }

theorem spanJson_released_bob :
    spanJson { strictPrivacy := true } janeSpan {} =
      spanJson { strictPrivacy := true } bobSpan {} :=
  spanJson_released rfl ⟨rfl, rfl, rfl, rfl, rfl, by decide, by decide⟩

end ForgeOps.Spans
