import CacheSeek.Lib.JsonText
import CacheSeek.Prefix.Snapshot

namespace CacheSeek.Prefix
open CacheSeek.Lib

def BlobData.toJson (b : BlobData) : Json :=
  .obj [("tier", .str b.tier), ("locator", .str b.locator), ("nbytes", .int b.nbytes),
    ("n_layers", .int b.nLayers)]

def NodeData.toJson (nd : NodeData) : Json :=
  .obj [("node_key", .str nd.nodeKey), ("action", nd.action.toJson), ("depth", .int nd.depth),
    ("parent", Json.ofOption .str nd.parent), ("pinned", .bool nd.pinned), ("skeleton", Json.ofOption .str nd.skeleton),
    ("blob", Json.ofOption BlobData.toJson nd.blob)]

def NamespaceData.toJson (d : NamespaceData) : Json :=
  .obj ([("root_hash", .str d.rootHash), ("config_blob_hash", .str d.configBlobHash)] ++
    (d.pinned.map fun b => ("pinned", Json.bool b)).toList ++
    [("nodes", .arr (d.nodes.map NodeData.toJson))])

def SnapshotData.toJson (d : SnapshotData) : Json :=
  .obj [("version", .int d.version), ("namespaces", .arr (d.namespaces.map NamespaceData.toJson))]

/-- Here and below, `none` stands for a field that is missing where it is needed, or of another type than
`snapshot` writes. -/
def ActionKey.ofJson : Json → Option ActionKey
  | .int n => some (.int n)
  | .str s => some (.str s)
  | _ => none

def BlobData.ofJson (j : Json) : Option BlobData := do
  let tier ← j.field "tier" Json.asStr
  let locator ← j.field "locator" Json.asStr
  let nbytes ← j.fieldD "nbytes" Json.asInt 0
  let nLayers ← j.field "n_layers" Json.asInt
  some ⟨tier, locator, nbytes, nLayers⟩

def NodeData.ofJson (j : Json) : Option NodeData := do
  let nodeKey ← j.field "node_key" Json.asStr
  let action ← j.field "action" ActionKey.ofJson
  let depth ← j.field "depth" Json.asInt
  let parent ← j.fieldD "parent" (Json.nullable Json.asStr) none
  let pinned ← j.fieldD "pinned" Json.asBool false
  let skeleton ← j.fieldD "skeleton" (Json.nullable Json.asStr) none
  let blob ← j.fieldD "blob" (Json.nullable BlobData.ofJson) none
  some ⟨nodeKey, action, depth, parent, pinned, skeleton, blob⟩

def NamespaceData.ofJson (j : Json) : Option NamespaceData := do
  let rootHash ← j.field "root_hash" Json.asStr
  let configBlobHash ← j.field "config_blob_hash" Json.asStr
  let pinned ← j.fieldD "pinned" (fun v => v.asBool.map some) none
  let nodes ← j.fieldD "nodes" Json.asArr []
  let nodes ← nodes.mapM NodeData.ofJson
  some ⟨rootHash, configBlobHash, pinned, nodes⟩

def SnapshotData.ofJson (j : Json) : Option SnapshotData := do
  let version ← j.fieldD "version" Json.asInt SNAPSHOT_VERSION
  let namespaces ← j.fieldD "namespaces" Json.asArr []
  let namespaces ← namespaces.mapM NamespaceData.ofJson
  some ⟨version, namespaces⟩

namespace NamespaceForest

/-- The text `save_forest_snapshot` puts in the file. -/
def saveForestSnapshot (f : NamespaceForest) : String :=
  Json.dumps Json.defaultStyle f.snapshot.toJson

/-- Load a file's text into the given forest, or a new one; no file is a cold start.
`none` stands for a text that is not a snapshot. -/
def loadForestSnapshot (file : Option String) (into : Option NamespaceForest) :
    Option (Except PyError Nat × NamespaceForest) :=
  let forest := into.getD .empty
  match file with
  | none => some (.ok 0, forest)
  | some text => do
    let j ← Json.loads text
    let data ← SnapshotData.ofJson j
    some (forest.loadSnapshot data)

end NamespaceForest

theorem ActionKey.ofJson_toJson (a : ActionKey) : ActionKey.ofJson a.toJson = some a := by
  cases a <;> rfl

theorem nullable_ofOption {α : Type} {read : Json → Option α} {write : α → Json}
    (h : ∀ a, read (write a) = some a) (hn : ∀ a, write a ≠ .null) (x : Option α) :
    Json.nullable read (Json.ofOption write x) = some x := by
  cases x with
  | none => rfl
  | some a =>
    have hj : ∀ j, j ≠ .null → Json.nullable read j = (read j).map some := by
      intro j hj
      cases j with
      | null => exact absurd rfl hj
      | _ => rfl
    rw [Json.ofOption, hj _ (hn a), h]
    rfl

theorem mapM_map {α : Type} {read : Json → Option α} {write : α → Json}
    (h : ∀ a, read (write a) = some a) (xs : List α) : (xs.map write).mapM read = some xs := by
  induction xs with
  | nil => rfl
  | cons x xs ih => simp [h, ih]

theorem BlobData.ofJson_toJson (b : BlobData) : BlobData.ofJson b.toJson = some b := by
  simp [ofJson, toJson, Json.get?, List.lookup_cons, Json.asStr, Json.asInt, Json.fieldD, Json.field]

theorem NodeData.ofJson_toJson (nd : NodeData) : NodeData.ofJson nd.toJson = some nd := by
  have hstr : ∀ x, Json.nullable Json.asStr (Json.ofOption Json.str x) = some x :=
    nullable_ofOption (fun _ => rfl)
      (fun _ => by simp)
  have hblob := nullable_ofOption BlobData.ofJson_toJson (fun _ => by simp [BlobData.toJson])
  simp [ofJson, toJson, Json.get?, List.lookup_cons, Json.asStr, Json.asInt, Json.asBool, Json.fieldD, Json.field,
    ActionKey.ofJson_toJson, hstr, hblob]

theorem NamespaceData.ofJson_toJson (d : NamespaceData) : NamespaceData.ofJson d.toJson = some d := by
  obtain ⟨root, cfg, pinned, nodes⟩ := d
  have hnodes := mapM_map NodeData.ofJson_toJson nodes
  cases pinned <;>
    simp [ofJson, toJson, Json.get?, List.lookup_cons, Json.asStr, Json.asArr, Json.asBool, Json.fieldD, Json.field,
      hnodes]

theorem SnapshotData.ofJson_toJson (d : SnapshotData) : SnapshotData.ofJson d.toJson = some d := by
  simp [ofJson, toJson, Json.get?, List.lookup_cons, Json.asInt, Json.asArr, Json.fieldD,
    mapM_map NamespaceData.ofJson_toJson]

/-- Loading the text of a forest's file is loading its snapshot. -/
theorem NamespaceForest.load_saved (f : NamespaceForest) (into : Option NamespaceForest) :
    loadForestSnapshot (some f.saveForestSnapshot) into =
      some ((into.getD .empty).loadSnapshot f.snapshot) := by
  simp [loadForestSnapshot, saveForestSnapshot, Json.loads_dumps, SnapshotData.ofJson_toJson]

end CacheSeek.Prefix
