import WireCapture.Entity
import WireCapture.Json

/-!
# Entities as documents

Every field of a record in its order, then the nested entities.
-/
namespace WireCapture

def ScriptBinding.document (s : ScriptBinding) : Json :=
  .object
    [ ("version", .nat s.version.toNat),
      ("function", .string s.function),
      ("slot", .nat s.slot.toNat) ]

def ObjectHeader.document (h : ObjectHeader) : Json :=
  .object
    [ ("version", .nat h.version.toNat),
      ("extent", .nat h.extent.toNat),
      ("id", .nat h.id.toNat),
      ("x", .single h.x),
      ("y", .single h.y),
      ("present", .bool h.present),
      ("flags", .nat h.flags.toNat),
      ("name", .string h.name),
      ("team", .nat h.team.toNat),
      ("sub_count", .nat h.subCount.toNat),
      ("owned_ids", .array (h.ownedIds.map fun id => .nat id.toNat)),
      ("anim", .nat h.anim.toNat),
      ("script_handler", .ofOption ScriptBinding.document h.script),
      ("dead_frame", .ofOption (fun n => .number n.toInt) h.deadFrame) ]

def Gear.fields (g : Gear) : List (String × Json) :=
  [ ("modifiers", .array (g.modifiers.map fun name => .object [("name", .string name)])),
    ("health", .ofOption (fun n => .nat n.toNat) g.health),
    ("val13", .ofOption (fun n => .nat n.toNat) g.val13),
    ("val14", .ofOption (fun n => .nat n.toNat) g.val14) ]

def Body.fields (b : Body) : List (String × Json) := (b.gear?.map Gear.fields).getD []

def Record.fields (r : Record) : List (String × Json) :=
  [ ("kind", .string r.body.kind.label),
    ("version", .nat r.version.toNat),
    ("header", r.header.document) ] ++ r.body.fields

def Entity.document : Entity → Json
  | .node r es => .object (r.fields ++ [("sub", .array (es.map fun e => document e))])
termination_by e => sizeOf e
decreasing_by
  have := List.sizeOf_lt_of_mem ‹e ∈ es›
  simp only [node.sizeOf_spec]
  omega

end WireCapture
