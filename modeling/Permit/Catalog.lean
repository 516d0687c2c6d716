-- A catalog of software: its entities, the rules about them, and the filters that its
-- search understands.
import Permit.Resolution.Http

namespace Permit.Catalog

open Json

/-! ## Entities -/

/-- An entry of the catalog. -/
structure Entity where
  kind : String
  name : String
  componentType : Option String := none
  owner : Option String := none
  annotations : List (String × String) := []
deriving DecidableEq, Repr

/-- The reference of an entity. -/
def Entity.ref (e : Entity) : String := e.kind ++ ":default/" ++ e.name

/-- A few entities. -/
def samples : List Entity :=
  [{ kind := "component", name := "service-a", componentType := some "service",
     owner := some "group:default/team-a",
     annotations := [("backstage.io/techdocs-ref", "dir:.")] },
   { kind := "component", name := "website", componentType := some "website",
     owner := some "group:default/team-b" },
   { kind := "template", name := "create-service", owner := some "group:default/platform" },
   { kind := "api", name := "orders-api", owner := some "group:default/team-a" }]

/-! ## Filters -/

/-- A fragment of a search: the field has one of the values, or it is there. -/
inductive Filter where
  | isIn (key : String) (values : List String)
  | exists (key : String)
deriving DecidableEq, Repr

namespace Filter

/-- The filter as the search spells it. -/
def text : Filter → String
  | .isIn key values =>
    key ++ " IN (" ++ ", ".intercalate (values.map fun v => "\"" ++ v ++ "\"") ++ ")"
  | .exists key => key ++ " EXISTS"

instance : ToString Filter := ⟨text⟩

/-- The operation comes first. -/
def toJson : Filter → Value
  | .isIn key values =>
    .obj [("op", .str "in"), ("key", .str key), ("values", .arr (values.map .str))]
  | .exists key => .obj [("op", .str "exists"), ("key", .str key)]

def variants : Variants Filter :=
  [("in", .fields
      (((Record.required "key" .string).and (Record.required "values" (.list .string))).map
        fun (key, values) => .isIn key values) "struct variant Filter::In"),
    ("exists", .fields ((Record.required "key" .string).map .exists)
      "struct variant Filter::Exists")]

def decoder : Decoder Filter :=
  variants.toTaggedDecoder "op" "internally tagged enum Filter"

end Filter

/-! ## The text of a query -/

mutual

/-- The text of lowered criteria: `AND` binds tighter than `OR`, so an `any` of several
stands in parentheses inside an `all`. -/
def render : Criteria Filter → String
  | .leaf f => f.text
  | .all [] => "TRUE"
  | .any [] => "FALSE"
  | .all (c :: rest) => renderFactor c ++ renderFactors rest
  | .any (c :: rest) => render c ++ renderTerms rest

/-- A part of an `all`. -/
def renderFactor : Criteria Filter → String
  | .leaf f => f.text
  | .all [] => "TRUE"
  | .any [] => "FALSE"
  | .all (c :: rest) => renderFactor c ++ renderFactors rest
  | .any [c] => render c
  | .any (c :: rest) => "(" ++ (render c ++ renderTerms rest) ++ ")"

/-- More parts of an `all`. -/
def renderFactors : List (Criteria Filter) → String
  | [] => ""
  | c :: rest => " AND " ++ renderFactor c ++ renderFactors rest

/-- More parts of an `any`. -/
def renderTerms : List (Criteria Filter) → String
  | [] => ""
  | c :: rest => " OR " ++ render c ++ renderTerms rest

end

/-! ## Rules -/

/-- Equality of texts up to the case of ASCII letters. -/
def sameUpToCase (a b : String) : Bool := a.toLower == b.toLower

/-- Entities of one of the given kinds, in any case. -/
def isEntityKind : TypedRule (List String) Entity Filter where
  name := "IS_ENTITY_KIND"
  description := "Allow entities of one of the given kinds"
  params := .single (.list .string)
  holds kinds e := kinds.any fun kind => sameUpToCase kind e.kind
  query kinds := .isIn "kind" (kinds.map String.toLower)

/-- Components of one of the given types. -/
def isComponentType : TypedRule (List String) Entity Filter where
  name := "IS_COMPONENT_TYPE"
  description := "Allow components of one of the given types"
  params := .single (.list .string)
  holds types e := e.componentType.any types.contains
  query types := .isIn "spec.type" types

/-- Entities of one of the given owners. -/
def isOwner : TypedRule (List String) Entity Filter where
  name := "IS_OWNER"
  description := "Allow entities owned by one of the given claims"
  params := .single (.list .string)
  holds claims e := e.owner.any claims.contains
  query claims := .isIn "relations.ownedBy" claims

/-- Entities with the given annotation. -/
def isAnnotated : TypedRule String Entity Filter where
  name := "HAS_ANNOTATION"
  description := "Allow entities carrying the given annotation"
  params := .single .string
  holds key e := (e.annotations.map Prod.fst).contains key
  query key := .exists ("metadata.annotations." ++ key)

/-- The rules of the catalog. -/
def rules : List (Rule Entity Filter) :=
  [isEntityKind.erase, isComponentType.erase, isOwner.erase]

/-- The registry of the rules; no two of them have one name. -/
def registry : Registry Entity Filter :=
  match Registry.empty.extend rules with
  | .ok g => g
  | .error _ => .empty

/-- The registry with the rule about annotations. -/
def extendedRegistry : Registry Entity Filter :=
  match registry.extend [isAnnotated.erase] with
  | .ok g => g
  | .error _ => registry

/-! ## The service -/

/-- The type of its resources. -/
def resourceType : String := "catalog-entity"

/-- Its name among the services. -/
def pluginId : String := "catalog"

/-- The sample of that reference. -/
def fetchSample (ref : String) : Fetched Entity :=
  .ok (samples.find? fun e => e.ref == ref)

end Permit.Catalog
