import ScanTriage.Heuristics.CachePriming

/-!
# Loop shape

Tells whether the loop around a finding runs over many objects or over the
fields of one. A sign of many objects outweighs everything; without any sign
the shape stays unclear.
-/

namespace ScanTriage

inductive LoopShape where
  /-- Many objects are iterated or queried. -/
  | many (marker : Bytes)
  /-- Only the field or key of one object varies. -/
  | single (basis : Bytes)
  | unclear
  deriving DecidableEq

namespace LoopShape

/-- Below this many bytes a text shows too little, and the path decides. -/
def shortText : Nat := 40

/-- Iterations over collections and the calls that build them. -/
def manyMarkers : List Bytes :=
  [ "foreach($users", "foreach($posts", "foreach($orders", "foreach($comments",
    "foreach($terms", "foreach($products", "foreach($user_ids", "foreach($post_ids",
    "get_users(", "newWP_User_Query(", "newWP_Query(", "get_posts(", "wc_get_orders(",
    "wc_get_products(", "get_comments(", "get_terms(", "->get_results(", "have_posts()" ]

/-- Iterations over the fields of one object. -/
def fieldMarkers : List Bytes :=
  [ "foreach($fields", "foreach($meta_keys", "foreach($keys", "foreach($field_keys",
    "foreach($meta_fields", "foreach($profile_fields", "foreach($custom_fields" ]

/-- Names of one object that stay the same over a loop. -/
def stableIds : List Bytes :=
  [ "get_current_user_id()", "$profileuser->ID", "$user->ID", "$user_id", "$post->ID",
    "$post_id", "get_the_ID()" ]

def singlePaths : List Bytes := ["custom-fields", "user-admin", "profile"]

def manyMarker? (e : Evidence) : Option Bytes := firstIn? e.compact manyMarkers

def fieldLoop? (e : Evidence) : Option Bytes := do
  let field ← firstIn? e.compact fieldMarkers
  let id ← firstIn? e.compact stableIds
  some (field ++ " with " ++ id)

/-- A short text in a view of one object. -/
def singleScreen? (e : Evidence) : Option Bytes :=
  if e.compact.length < shortText && CachePriming.inView e then
    (firstIn? e.path singlePaths).map fun fragment => "path " ++ fragment
  else none

def of (e : Evidence) : LoopShape :=
  match manyMarker? e with
  | some marker => many marker
  | none =>
    match fieldLoop? e <|> singleScreen? e with
    | some basis => single basis
    | none => .unclear

def isSingle : LoopShape → Bool
  | single _ => true
  | _ => false

def isMany : LoopShape → Bool
  | many _ => true
  | _ => false

def basis : LoopShape → Bytes
  | many marker => marker
  | single basis => basis
  | .unclear => []

end LoopShape

end ScanTriage
