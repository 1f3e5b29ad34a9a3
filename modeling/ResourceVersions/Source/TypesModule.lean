import ResourceVersions.Model.Basic
import ResourceVersions.Source.Classes

/-!
# The module of types

The classes of one version: its enumerations, its structures and, for each resource, a Spec, a
Status and the resource itself.
-/
namespace ResourceVersions.Source

def enumClass (d : EnumDef) : ClassDef where
  name := d.className
  isDataclass := false
  base? := some "object"
  summary := s!"Values of {d.shape}"
  attrs := d.values.map fun v => { name := v.clean, form := .constant v.value }

def typeClass (m : VersionModel) (d : TypeDef) : Except SchemaError ClassDef := do
  let attrs ← d.attrs.mapM fun a => do
    let hint ← m.hint (some a.ref.target) a.isSecret
    return { name := a.names.camelLower, form := .optional hint }
  return { name := d.className, summary := d.shape, documentation := d.documentation, attrs }

/-- The attributes of a Spec or Status. -/
def fieldAttrs (m : VersionModel) (fields : Table Field) : Except SchemaError (List ClassAttr) :=
  fields.sorted.mapM fun (_, f) => do
    return { name := f.attrName, form := .optional (← m.hint f.shape? f.isSecret) }

/-- The attribute of a Status that says which cloud resource an object stands for. -/
def metadataAttr : ClassAttr where
  name := "resourceMetadata"
  form := .optional (.named "ResourceMetadata")

def specClass (m : VersionModel) (r : Resource) : Except SchemaError ClassDef := do
  let camel := r.names.camel
  return { name := camel ++ "Spec", summary := s!"Desired state of a {camel}"
           attrs := ← fieldAttrs m r.spec }

def statusClass (m : VersionModel) (r : Resource) : Except SchemaError ClassDef := do
  let camel := r.names.camel
  return { name := camel ++ "Status", summary := s!"Observed state of a {camel}"
           attrs := metadataAttr :: (← fieldAttrs m r.status) }

def resourceClass (m : VersionModel) (r : Resource) : ClassDef :=
  let camel := r.names.camel
  { name := camel, base? := some "ResourceBase", summary := camel
    attrs :=
      [⟨"apiVersion", .fixed m.apiVersion⟩, ⟨"kind", .fixed camel⟩,
       ⟨"spec", .owned (camel ++ "Spec")⟩, ⟨"status", .owned (camel ++ "Status")⟩] }

/-- All classes of a version in the order of their definitions. -/
def classes (m : VersionModel) : Except SchemaError (List ClassDef) := do
  let types ← m.typeDefs.mapM (typeClass m)
  let resources ← m.resources.mapM fun r => do
    return [← specClass m r, ← statusClass m r, resourceClass m r]
  return m.enumDefs.map enumClass ++ types ++ resources.flatten

def typesHead (m : VersionModel) : List String :=
  moduleHead m.api.serviceId m.version ++
    ["from dataclasses import dataclass, field",
     "from datetime import datetime",
     "from typing import Dict, List, Optional",
     "",
     "from henkan.runtime import (ObjectMeta, ResourceBase, ResourceMetadata,",
     "                            SecretKeyReference)",
     ""]

/-- The source of the module of types. -/
def typesModule (m : VersionModel) : Except SchemaError String := do
  let defs ← classes m
  let names := sortNames (defs.map ClassDef.name)
  return fileText (moduleLines (typesHead m) (defs.map ClassDef.lines) names)

end ResourceVersions.Source
