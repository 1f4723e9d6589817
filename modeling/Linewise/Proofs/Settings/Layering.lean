import Linewise.Proofs.Settings.Assignments
import Linewise.Settings.Layers
import Mathlib.Data.List.Count
/-!
How the layers of a configuration come about. Each layer holds what its file assigns to known keys up
to the first erroneous line, the project's layer hides the global one key by key, and every key that
was dropped and every file that could not be read to its end is warned of once.
-/
namespace Linewise.Settings

inductive Layer where
  | global
  | project
  deriving DecidableEq

def Layer.name : Layer → Bytes
  | .global => utf8 "global"
  | .project => utf8 "project"

def Sources.path (s : Sources) : Layer → Bytes
  | .global => s.global
  | .project => s.project

def Layers.values (l : Layers) : Layer → Table
  | .global => l.global
  | .project => l.project

/-- Why a layer was not read, or not to its end. -/
inductive LayerFault where
  | irregular
  | erroneous (number : Nat) (error : LineError)
  deriving DecidableEq

def LayerFault.text (path : Bytes) : LayerFault → Bytes
  | .irregular => utf8 "not a regular file: " ++ path
  | .erroneous number error => Document.position path number ++ error.message

/-- What a load warns of. -/
inductive LoadWarning where
  | missing
  | repeated (layer : Layer) (number : Nat) (key : Bytes)
  | failed (layer : Layer) (fault : LayerFault)
  | unknown (layer : Layer) (key : Bytes)
  deriving DecidableEq

namespace LoadWarning

def text (s : Sources) : LoadWarning → Bytes
  | .missing => utf8 "config file not found: " ++ s.project
  | .repeated layer number key =>
    Document.position (s.path layer) number ++ utf8 "duplicate key " ++ key.quoted ++
      utf8 ", overriding"
  | .failed layer fault =>
    utf8 "failed to load " ++ layer.name ++ utf8 " config: " ++ fault.text (s.path layer)
  | .unknown layer key =>
    s.path layer ++ utf8 ": unknown key " ++ key.quoted ++ utf8 " ignored"

/-- The fault of a layer that a warning tells. -/
def fault? (layer : Layer) : LoadWarning → Option LayerFault
  | .failed other fault => if other = layer then some fault else none
  | _ => none

end LoadWarning

/-- The lines of a layer's file; there are none if it is absent or not a regular file. -/
def layerLines (d : Disk) (path : Bytes) : List Bytes :=
  match d.look path with
  | .ok (.file content) => Newline.lfLines content
  | _ => []

/-- What a layer's file assigns last to a key before its first erroneous line. -/
def layerValue (d : Disk) (path key : Bytes) : Option Value :=
  lastAssigned (soundLines (layerLines d path)) key

/-- What is wrong with a layer's file: it is there without being a regular file, or it has an
erroneous line. -/
def layerFault? (d : Disk) (path : Bytes) : Option LayerFault :=
  match d.look path with
  | .ok (.file content) => (firstError? (Newline.lfLines content)).map fun e => .erroneous e.1 e.2
  | .ok _ => some .irregular
  | .error _ => none

/-- Whether a layer's file assigns to a key that means nothing. -/
def drops (d : Disk) (path key : Bytes) : Bool :=
  !Key.isKnown key && (layerValue d path key).isSome

/-- Each layer holds what its file assigns to known keys, the project's layer goes over the global
one, and the warnings tell of each dropped key and of each fault of a file once. -/
structure Layers.Layered (l : Layers) (d : Disk) : Prop where
  distinct : ∀ t ∈ [l.global, l.project, l.effective], (t.map (·.1)).Nodup
  known : ∀ layer, ∀ e ∈ l.values layer, Key.isKnown e.1 = true
  value : ∀ layer key, Key.isKnown key = true →
    (l.values layer).get? key = layerValue d (l.sources.path layer) key
  effective : ∀ key, l.effective.get? key = (l.project.get? key).or (l.global.get? key)
  warnings : ∃ ws : List LoadWarning, l.warnings = ws.map (·.text l.sources) ∧
    (∀ layer key, ws.count (.unknown layer key) =
      if drops d (l.sources.path layer) key then 1 else 0) ∧
    ∀ layer, ws.filterMap (·.fault? layer) = (layerFault? d (l.sources.path layer)).toList

/-- The warnings about one layer: the keys assigned once more, the fault of the file, and the keys
that were dropped. -/
def Layer.log (layer : Layer) (again : List (Nat × Bytes)) (fault : Option LayerFault)
    (dropped : List Bytes) : List LoadWarning :=
  again.map (fun r => .repeated layer r.1 r.2) ++ fault.toList.map (.failed layer) ++
    dropped.map (.unknown layer)

theorem count_log (layer other : Layer) (again : List (Nat × Bytes)) (fault : Option LayerFault)
    (dropped : List Bytes) (key : Bytes) :
    (layer.log again fault dropped).count (.unknown other key) =
      if other = layer then dropped.count key else 0 := by
  have hagain : (again.map fun r => LoadWarning.repeated layer r.1 r.2).count (.unknown other key) =
      0 := List.count_eq_zero_of_not_mem (by simp)
  have hfault : (fault.toList.map (LoadWarning.failed layer)).count (.unknown other key) = 0 :=
    List.count_eq_zero_of_not_mem (by simp)
  rw [Layer.log, List.count_append, List.count_append, hagain, hfault, Nat.zero_add]
  split
  · rename_i hsame
    subst hsame
    exact List.count_map_of_injective _ _ (fun a b h => (LoadWarning.unknown.inj h).2) key
  · rename_i hother
    refine List.count_eq_zero_of_not_mem fun hmem => ?_
    obtain ⟨_, _, heq⟩ := List.mem_map.mp hmem
    exact hother (LoadWarning.unknown.inj heq).1.symm

theorem filterMap_fault?_log (layer other : Layer) (again : List (Nat × Bytes))
    (fault : Option LayerFault) (dropped : List Bytes) :
    (layer.log again fault dropped).filterMap (·.fault? other) =
      if other = layer then fault.toList else [] := by
  have hagain : (again.map fun r => LoadWarning.repeated layer r.1 r.2).filterMap
      (·.fault? other) = [] := by
    rw [List.filterMap_map, List.filterMap_eq_nil_iff]
    intro r _
    rfl
  have hdropped : (dropped.map (LoadWarning.unknown layer)).filterMap (·.fault? other) = [] := by
    rw [List.filterMap_map, List.filterMap_eq_nil_iff]
    intro key _
    rfl
  rw [Layer.log, List.filterMap_append, List.filterMap_append, hagain, hdropped, List.nil_append,
    List.append_nil, List.filterMap_map]
  cases fault with
  | none => simp
  | some fault =>
      by_cases hsame : other = layer
      · simp [LoadWarning.fault?, hsame]
      · simp [LoadWarning.fault?, hsame, Ne.symm hsame]

section
variable {front : List LoadWarning} (again : Layer → List (Nat × Bytes))
  (fault : Layer → Option LayerFault) (dropped : Layer → List Bytes)

/-- The warnings about both layers, behind those about neither. -/
def layersLog (front : List LoadWarning) : List LoadWarning :=
  front ++ Layer.global.log (again .global) (fault .global) (dropped .global) ++
    Layer.project.log (again .project) (fault .project) (dropped .project)

theorem count_layersLog (hfront : ∀ w ∈ front, w = .missing) (layer : Layer) (key : Bytes) :
    (layersLog again fault dropped front).count (.unknown layer key) =
      (dropped layer).count key := by
  have hnone : front.count (.unknown layer key) = 0 :=
    List.count_eq_zero_of_not_mem fun hmem => by cases hfront _ hmem
  rw [layersLog, List.count_append, List.count_append, hnone, count_log, count_log]
  cases layer with
  | global => simp
  | project => simp

theorem filterMap_fault?_layersLog (hfront : ∀ w ∈ front, w = .missing) (layer : Layer) :
    (layersLog again fault dropped front).filterMap (·.fault? layer) = (fault layer).toList := by
  have hnone : front.filterMap (·.fault? layer) = [] := by
    rw [List.filterMap_eq_nil_iff]
    intro w hw
    rw [hfront w hw]
    rfl
  rw [layersLog, List.filterMap_append, List.filterMap_append, hnone, filterMap_fault?_log,
    filterMap_fault?_log]
  cases layer with
  | global => simp
  | project => simp

end

/-- The layer holds what its file assigns to known keys, and these are the keys that it dropped. -/
structure LayerRead (d : Disk) (path : Bytes) (values : Table) (dropped : List Bytes) : Prop where
  sorted : values.Sorted
  value : ∀ key, values.get? key = if Key.isKnown key then layerValue d path key else none
  nodup : dropped.Nodup
  dropped : ∀ key, key ∈ dropped ↔ drops d path key = true

section
variable {d : Disk} {path : Bytes}

theorem layerRead_of_not_file (h : ∀ content, d.look path ≠ .ok (.file content)) :
    LayerRead d path [] [] := by
  have hvalue (key : Bytes) : layerValue d path key = none := by
    rw [layerValue, layerLines]
    split
    · exact absurd ‹_› (h _)
    · rfl
  refine ⟨.nil, fun key => ?_, .nil, fun key => ?_⟩
  · rw [hvalue, ite_self]
    rfl
  · simp [drops, hvalue]

theorem layerRead_of_file {content : Bytes} (h : d.look path = .ok (.file content)) :
    LayerRead d path ((Document.read content).values.filter fun e => Key.isKnown e.1)
      (((Document.read content).values.filter fun e => !Key.isKnown e.1).map (·.1)) := by
  obtain ⟨hsorted, hget, _⟩ := Document.read_follows content
  have hvalue (key : Bytes) : (Document.read content).values.get? key = layerValue d path key := by
    rw [hget, layerValue, layerLines, h]
  refine ⟨hsorted.filter _, fun key => ?_, ?_, fun key => ?_⟩
  · rw [Table.get?_filter, hvalue]
  · exact Table.Sorted.nodup_keys (hsorted.filter _)
  · rw [← Table.isSome_get?_iff, Table.get?_filter _ (fun k => !Key.isKnown k), hvalue, drops]
    cases Key.isKnown key with
    | false => rfl
    | true => simp

end

/-- What the reading of a layer gives, with what its warnings tell. -/
theorem readLayer_reads (d : Disk) (s : Sources) (layer : Layer) :
    ∃ again dropped, LayerRead d (s.path layer) (readLayer d layer.name (s.path layer)).1 dropped ∧
      (readLayer d layer.name (s.path layer)).2 =
        (layer.log again (layerFault? d (s.path layer)) dropped).map (·.text s) := by
  rw [readLayer, Disk.isThere]
  cases hlook : d.look (s.path layer) with
  | error e =>
      have hfault : layerFault? d (s.path layer) = none := by rw [layerFault?, hlook]
      rw [hfault]
      exact ⟨[], [], layerRead_of_not_file (by simp [hlook]), rfl⟩
  | ok node =>
      cases node with
      | directory | device =>
          have hfault : layerFault? d (s.path layer) = some .irregular := by rw [layerFault?, hlook]
          rw [hfault]
          exact ⟨[], [], layerRead_of_not_file (by simp [hlook]), rfl⟩
      | file content =>
          have hfault : layerFault? d (s.path layer) =
              (Document.read content).error.map fun e => .erroneous e.1 e.2 := by
            rw [layerFault?, hlook, Document.error_read]
          refine ⟨(Document.read content).repeated, _, layerRead_of_file hlook, ?_⟩
          rw [hfault, Layer.log, List.map_append, List.map_append, List.map_map, List.map_map,
            List.map_map, List.map_map]
          simp only [if_true, Document.readNamed, Document.errorMessage?, List.nil_append]
          cases (Document.read content).error with
          | none => rfl
          | some e => rfl

theorem LayerRead.count_dropped {d : Disk} {path : Bytes} {values : Table} {dropped : List Bytes}
    (h : LayerRead d path values dropped) (key : Bytes) :
    dropped.count key = if drops d path key then 1 else 0 := by
  rw [h.nodup.count]
  simp only [h.dropped]

theorem LayerRead.known {d : Disk} {path : Bytes} {values : Table} {dropped : List Bytes}
    (h : LayerRead d path values dropped) {e : Bytes × Value} (he : e ∈ values) :
    Key.isKnown e.1 = true := by
  have hsome := (values.isSome_get?_iff e.1).mpr (List.mem_map_of_mem he)
  rw [h.value] at hsome
  by_contra hunknown
  rw [if_neg hunknown] at hsome
  cases hsome

/-- A load warns of an explicit path that is absent, and then as its layers do. -/
theorem Layers.warnings_load (d : Disk) (env : Environment) (anchor explicit : Option Bytes) :
    let l := Layers.load d env anchor explicit
    ∃ front : List LoadWarning, (∀ w ∈ front, w = .missing) ∧
      l.warnings = front.map (·.text l.sources) ++
        (readLayer d Layer.global.name (l.sources.path .global)).2 ++
        (readLayer d Layer.project.name (l.sources.path .project)).2 := by
  intro l
  cases explicit with
  | none => exact ⟨[], by simp, rfl⟩
  | some path =>
      by_cases hthere : d.isThere path = true
      · refine ⟨[], by simp, ?_⟩
        simp only [l, load, if_pos hthere]
        rfl
      · refine ⟨[.missing], by simp, ?_⟩
        simp only [l, load, if_neg hthere]
        rfl

/-- What a load makes of each layer's file, with what its warnings tell. -/
theorem Layers.load_reads (d : Disk) (env : Environment) (anchor explicit : Option Bytes) :
    let l := Layers.load d env anchor explicit
    ∃ front again dropped, (∀ w ∈ front, w = .missing) ∧
      (∀ layer, LayerRead d (l.sources.path layer) (l.values layer) (dropped layer)) ∧
      l.warnings =
        (layersLog again (fun layer => layerFault? d (l.sources.path layer)) dropped front).map
          (·.text l.sources) := by
  intro l
  choose again dropped hread hlog using readLayer_reads d l.sources
  obtain ⟨front, hfront, hwarnings⟩ := warnings_load d env anchor explicit
  refine ⟨front, again, dropped, hfront, fun layer => ?_, ?_⟩
  · cases layer with
    | global => exact hread .global
    | project => exact hread .project
  · rw [layersLog, List.map_append, List.map_append, ← hlog, ← hlog]
    exact hwarnings

/-- A configuration is loaded layer by layer, and an explicit path stands in for the project's file
and for nothing else. -/
theorem Layers.load_layered (d : Disk) (env : Environment) (anchor explicit : Option Bytes) :
    let l := Layers.load d env anchor explicit
    let found := Layers.load d env anchor none
    l.Layered d ∧ l.global = found.global ∧
      l.sources = { found.sources with project := explicit.getD found.sources.project } := by
  intro l found
  refine ⟨?_, rfl, rfl⟩
  obtain ⟨front, again, dropped, hfront, hread, hwarnings⟩ := load_reads d env anchor explicit
  have hglobal : l.global.Sorted := (hread .global).sorted
  have hproject : l.project.Sorted := (hread .project).sorted
  refine { distinct := ?_, known := ?_, value := ?_, effective := ?_, warnings := ?_ }
  · intro t ht
    simp only [List.mem_cons, List.not_mem_nil, or_false] at ht
    rcases ht with rfl | rfl | rfl
    · exact hglobal.nodup_keys
    · exact hproject.nodup_keys
    · exact (hglobal.overlay l.project).nodup_keys
  · intro layer e he
    exact (hread layer).known he
  · intro layer key hkey
    rw [(hread layer).value, if_pos hkey]
  · exact Table.get?_overlay hproject l.global
  · refine ⟨_, hwarnings, fun layer key => ?_, filterMap_fault?_layersLog again _ dropped hfront⟩
    rw [count_layersLog again _ dropped hfront, (hread layer).count_dropped]

end Linewise.Settings
