import ScanTriage.Heuristics.LoopShape
import ScanTriage.Triage.Chain

/-!
# Rules on database queries

Unprepared queries, queries without a bound, and metadata read in a loop. The
last weighs cache priming and the shape of the loop first, and then what else
keeps the number of queries down.
-/

namespace ScanTriage

namespace Rules

def unprepared : Chain where
  id := "wpdb-query-no-prepare"
  category := "unprepared $wpdb queries"
  rules :=
    [ .fixed "constant-found-rows" (·.codeHas "SELECT FOUND_ROWS()") .falsePositive .high
        "`SELECT FOUND_ROWS()` contains no external inputs; prepare() is not necessary for a constant query.",
      .fixed "truncate-table" (·.codeHas "TRUNCATE TABLE") .needsReview .medium
        "TRUNCATE with interpolated table name can be safe if table name is internal/validated; confirm it is not user-controlled." ]
  fallback := .otherwise "wpdb-default" .needsReview .medium
    "Direct SQL query detected; verify no untrusted input is interpolated and prefer $wpdb->prepare() where applicable."

/-- The ways to ask for identifiers only, without white space. -/
def idsOnly : List Bytes :=
  ["'fields'=>'ids'", "\"fields\"=>\"ids\"", "'fields'=>\"ids\"", "\"fields\"=>'ids'"]

def unboundedQuery : Chain where
  id := "wp-query-unbounded"
  category := "unbounded WP_Query"
  rules :=
    [ .fixed "ids-only-query" (·.compactHasAny idsOnly) .falsePositive .medium
        "Query fetches IDs only (`'fields' => 'ids'`); the unbounded result is a flat integer list rather than full post objects." ]
  fallback := .otherwise "wp-query-default" .needsReview .medium
    "Query without an explicit bound; confirm the result set is small or add posts_per_page/no_found_rows constraints."

/-! ## Metadata in loops -/

def cacheCalls : List Bytes :=
  [ "get_transient(", "set_transient(", "get_site_transient(", "wp_cache_get(", "wp_cache_set(",
    "wp_cache_add(", "wp_cache_remember(" ]

def lowFrequencyPaths : List Bytes := ["/emails/", "/email/", "email-"]

/-- Arguments that bound a result unless their value is negative, which asks
for everything. -/
def boundArguments : List Bytes :=
  [ "'number'=>", "'posts_per_page'=>", "'limit'=>", "\"number\"=>", "\"posts_per_page\"=>",
    "\"limit\"=>" ]

def boundingCalls : List Bytes := ["array_slice(", "array_chunk(", "$batch_size"]

def isPrimed (e : Evidence) : Bool := (CachePriming.detect? e).isSome

def isSingleLoop (e : Evidence) : Bool := (LoopShape.of e).isSingle

def isCached (e : Evidence) : Bool := e.textHasAny cacheCalls

def isLowFrequency (e : Evidence) : Bool :=
  e.pathHasAny lowFrequencyPaths || e.textHas "wp_mail("

/-- Whether an argument is given with a value that is not negative, in what
follows after `skip` bytes. The search goes on behind every place where the
argument stands. -/
def givesBoundAfter (argument : Bytes) : (skip : Nat) → Bytes → Bool
  | _, [] => false
  | skip + 1, _ :: rest => givesBoundAfter argument skip rest
  | 0, b :: rest =>
    match Bytes.after? argument (b :: rest) with
    | none => givesBoundAfter argument 0 rest
    | some back =>
      back.head?.any (· != Bytes.minus) || givesBoundAfter argument (argument.length - 1) rest

/-- Whether an argument is given somewhere with a value that is not negative. -/
def givesBound (argument text : Bytes) : Bool := givesBoundAfter argument 0 text

def isBounded (e : Evidence) : Bool :=
  e.compactHasAny boundingCalls || boundArguments.any (givesBound · e.compact)

/-- Whether the code runs for administrators only; a user screen is not such a
place although its name may say so. -/
def isAdminOnly (e : Evidence) : Bool :=
  !e.pathHasAny ["user-admin"] && (e.pathHasAny ["/admin/"] || e.textHas "is_admin()")

/-- Why the cache is warm, and a remark. -/
def primingRationale (e : Evidence) (remark : Bytes) : Bytes :=
  ((CachePriming.detect? e).map (·.justification)).getD [] ++ " " ++ remark

def metadataInLoop : Chain where
  id := "n-plus-one-pattern"
  category := "metadata reads inside loops"
  rules :=
    [ { name := "primed-single-object"
        applies := fun e => isPrimed e && isSingleLoop e
        rule := fun e => ⟨.falsePositive, .high, primingRationale e
          ("The loop varies only the field/key of one object (" ++ (LoopShape.of e).basis ++
            "), so after the first read every lookup is served from the object cache.")⟩ },
      { name := "primed-loop-shape-unclear"
        applies := isPrimed
        rule := fun e => ⟨.needsReview, .medium, primingRationale e
          "The cache is likely warm, but the loop may iterate more than one object; confirm each iteration reads the same object."⟩ },
      { name := "single-object-loop"
        applies := isSingleLoop
        rule := fun e => ⟨.falsePositive, .medium,
          "The loop reads several fields of a single object (" ++ (LoopShape.of e).basis ++
            "); WordPress loads all metadata for an object on the first read, so this is one query, not N."⟩ },
      .fixed "explicit-caching" isCached .falsePositive .medium
        "Results are cached explicitly (transients or the object cache) around the loop; repeated runs do not repeat the queries.",
      .fixed "low-frequency-context" isLowFrequency .needsReview .medium
        "Runs in an email/notification context, which executes rarely; the per-iteration queries matter only if recipient lists are large.",
      .fixed "bounded-loop" isBounded .needsReview .medium
        "The iteration is bounded (slice, chunk, batch size or an explicit limit); cost grows with the bound, so confirm the bound is small.",
      .fixed "admin-only-context" isAdminOnly .needsReview .medium
        "Runs only in wp-admin, where traffic is low; still worth priming caches if the listed set can grow.",
      { name := "multi-object-loop"
        applies := fun e => (LoopShape.manyMarker? e).isSome
        rule := fun e => ⟨.confirmed, .high,
          "The loop iterates many objects (`" ++ (LoopShape.manyMarker? e).getD [] ++
            "`) and reads metadata per object without priming the cache: one query per iteration. " ++
            "Prime with update_meta_cache()/cache_users() before the loop."⟩ } ]
  fallback := .otherwise "loop-shape-unknown" .needsReview .low
    "Metadata is read inside a loop, but the snippet shows neither what the loop iterates nor whether the cache is primed; it may be one object's fields (cheap) or many objects (N+1). Inspect the surrounding code."

end Rules

end ScanTriage
