import ScanTriage.Text.Quoted
import ScanTriage.Evidence
import ScanTriage.Heuristics.Hook

/-!
# Cache priming

Tells whether the metadata cache of an object is already warm where a finding
lies. Three tiers are tried in turn: the file follows a screen convention, the
code names a bulk priming call, a loaded object or a hook, or a view reads
metadata of an object it was handed.
-/

namespace ScanTriage

inductive PrimingSignal where
  | path
  | preload
  | priming
  | hook
  | viewParam
  deriving DecidableEq

def PrimingSignal.label : PrimingSignal → Bytes
  | path => "path"
  | preload => "preload"
  | priming => "priming"
  | hook => "hook"
  | viewParam => "view_param"

structure CachePriming where
  kind : ObjectKind
  signal : PrimingSignal
  marker : Bytes
  justification : Bytes

structure Marker (κ : Type) where
  text : Bytes
  kind : κ
  label : Bytes

/-- The first marker, in the order of the list, whose text occurs. -/
def Marker.firstIn? {κ : Type} (text : Bytes) (markers : List (Marker κ)) : Option (Marker κ) :=
  markers.find? fun m => Bytes.occurs m.text text

namespace CachePriming

def viewMarkers : List Bytes := ["/views/", "/templates/", "/partials/"]

/-- Screens for which the edited object is loaded before the view renders. -/
def pathFragments : List (Marker ObjectKind) :=
  [ ⟨"user-admin", .user, "user admin"⟩,
    ⟨"user-edit", .user, "user edit"⟩,
    ⟨"user-profile", .user, "user profile"⟩,
    ⟨"profile", .user, "profile"⟩,
    ⟨"post-edit", .post, "post edit"⟩,
    ⟨"edit-post", .post, "post edit"⟩,
    ⟨"meta-box", .post, "meta box"⟩,
    ⟨"metabox", .post, "meta box"⟩ ]

/-- References to an object that is loaded for every request. -/
def preloadMarkers : List (Marker ObjectKind) :=
  [ ⟨"get_current_user_id()", .user, "the current user"⟩,
    ⟨"wp_get_current_user()", .user, "the current user"⟩,
    ⟨"$current_user->ID", .user, "the current user"⟩,
    ⟨"$profileuser", .user, "the profile screen user"⟩,
    ⟨"IS_PROFILE_PAGE", .user, "the profile screen user"⟩,
    ⟨"get_the_ID()", .post, "the current loop post"⟩,
    ⟨"global$post", .post, "the global post"⟩,
    ⟨"get_queried_object_id()", .post, "the queried object"⟩ ]

/-- Calls that warm many objects with one query. -/
def primingCalls : List (Marker ObjectKind) :=
  [ ⟨"update_meta_cache('user'", .user, "update_meta_cache()"⟩,
    ⟨"update_meta_cache(\"user\"", .user, "update_meta_cache()"⟩,
    ⟨"update_meta_cache('comment'", .comment, "update_meta_cache()"⟩,
    ⟨"update_meta_cache(\"comment\"", .comment, "update_meta_cache()"⟩,
    ⟨"update_meta_cache('term'", .term, "update_meta_cache()"⟩,
    ⟨"update_meta_cache(\"term\"", .term, "update_meta_cache()"⟩,
    ⟨"update_meta_cache(", .post, "update_meta_cache()"⟩,
    ⟨"update_postmeta_cache(", .post, "update_postmeta_cache()"⟩,
    ⟨"update_post_caches(", .post, "update_post_caches()"⟩,
    ⟨"update_termmeta_cache(", .term, "update_termmeta_cache()"⟩,
    ⟨"cache_users(", .user, "cache_users()"⟩ ]

/-- Variables through which a view is handed one object. -/
def boundParams : List (Marker ObjectKind) :=
  [ ⟨"$user->ID", .user, "$user->ID"⟩,
    ⟨"$user_id", .user, "$user_id"⟩,
    ⟨"$post->ID", .post, "$post->ID"⟩,
    ⟨"$post_id", .post, "$post_id"⟩,
    ⟨"$comment->comment_ID", .comment, "$comment->comment_ID"⟩,
    ⟨"$term->term_id", .term, "$term->term_id"⟩ ]

/-- Metadata reads; the last one reads metadata of any kind. -/
def metaReads : List (Marker (Option ObjectKind)) :=
  [ ⟨"get_user_meta(", some .user, "get_user_meta()"⟩,
    ⟨"get_post_meta(", some .post, "get_post_meta()"⟩,
    ⟨"get_comment_meta(", some .comment, "get_comment_meta()"⟩,
    ⟨"get_term_meta(", some .term, "get_term_meta()"⟩,
    ⟨"get_metadata(", none, "get_metadata()"⟩ ]

def inView (e : Evidence) : Bool := e.pathHasAny viewMarkers

def ofPath? (e : Evidence) : Option CachePriming :=
  if inView e then
    (Marker.firstIn? e.path pathFragments).map fun m =>
      { kind := m.kind
        signal := .path
        marker := m.text
        justification :=
          "File follows the " ++ m.label ++ " view convention (" ++ Text.quoted m.text ++
            " under a views/templates directory); WordPress loads the " ++ m.kind.label ++
            " and primes its full meta cache before the view renders, so repeated meta reads are " ++
            "served from the object cache." }
  else none

def ofBulkCall? (e : Evidence) : Option CachePriming :=
  (Marker.firstIn? e.compact primingCalls).map fun m =>
    { kind := m.kind
      signal := .priming
      marker := m.text
      justification :=
        "Metadata for the " ++ m.kind.label ++ " objects is primed in bulk with " ++ m.label ++
          " before it is read, so per-object reads hit the cache." }

/-- The code reads an object that is loaded anyway. -/
def ofPreload? (e : Evidence) : Option CachePriming :=
  (Marker.firstIn? e.compact preloadMarkers).map fun m =>
    { kind := m.kind
      signal := .preload
      marker := m.text
      justification :=
        "Code reads metadata of " ++ m.label ++ " (" ++ m.text ++ "), a " ++ m.kind.label ++
          " object WordPress has already loaded; the first read primes that " ++ m.kind.label ++
          "'s whole meta cache." }

def ofHook? (e : Evidence) : Option CachePriming :=
  (Hook.all.find? (·.isRegisteredIn e.compact)).map fun hook =>
    { kind := hook.kind
      signal := .hook
      marker := hook.name
      justification :=
        "Callback runs on the " ++ Text.quoted hook.name ++
          " hook, which fires after WordPress has cached the " ++ hook.kind.label ++
          "'s metadata." }

/-- A view reads metadata of an object it was handed. -/
def ofViewParam? (e : Evidence) : Option CachePriming :=
  if inView e then do
    let param ← Marker.firstIn? e.compact boundParams
    let read ← Marker.firstIn? e.compact metaReads
    let kind := read.kind.getD param.kind
    some
      { kind := kind
        signal := .viewParam
        marker := param.text
        justification :=
          "View template reads metadata with " ++ read.label ++ " for a bound " ++ kind.label ++
            " parameter (" ++ param.label ++ "); the " ++ kind.label ++
            "'s meta cache is primed on the first read." }
  else none

/-- The first tier that fires. -/
def detect? (e : Evidence) : Option CachePriming :=
  ofPath? e <|> ofBulkCall? e <|> ofPreload? e <|> ofHook? e <|> ofViewParam? e

end CachePriming

end ScanTriage
