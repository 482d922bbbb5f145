import ScanTriage.Trace
import ScanTriage.Triage.Rules.Request
import ScanTriage.Triage.Rules.Endpoint
import ScanTriage.Triage.Rules.Query

/-!
# The catalogue of chains

Every identifier that is triaged, with its chain and what a report says when
such findings were seen. The order is the order of narrative and
recommendations.
-/

namespace ScanTriage

/-- A sentence about the findings that one rule decided; it starts with their
number. -/
structure Note where
  rule : Bytes
  sentence : Bytes

/-- A chain and what a report says about its findings. -/
structure Topic where
  chain : Chain
  narrative : Bytes
  recommendation : Bytes
  notes : List Note := []

def Topic.all : List Topic :=
  [ { chain := Rules.debugCode
      narrative := "Shipped JavaScript contains `debugger;` statements, which are confirmed issues regardless of where they live."
      recommendation := "Remove/strip `debugger;` statements from shipped JS assets (or upgrade/patch the vendored library that contains them)." },
    { chain := Rules.httpNoTimeout
      narrative := "Remote HTTP calls without an explicit timeout are confirmed: a slow upstream can hold a PHP worker for the full default."
      recommendation := "Add explicit `timeout` arguments to `wp_remote_get/wp_remote_post/wp_remote_request` calls where missing." },
    { chain := Rules.superglobals
      narrative := "Direct superglobal writes are classified from the scanner's guard/sanitization flags where present, otherwise from nearby nonce checks and comments."
      recommendation := "Avoid writing to superglobals; where unavoidable, guard the write with a nonce/capability check and sanitize the value." },
    { chain := Rules.unsanitizedRead
      narrative := "Unsanitized superglobal reads are cleared only when a cast or nonce check is visible nearby; the rest need a look at how the value is used."
      recommendation := "For superglobal reads, ensure values are validated/sanitized before use and that nonce/capability checks exist on the request path." },
    { chain := Rules.dynamicPattern
      narrative := "Dynamic RegExp construction is cleared when metacharacters are escaped first; hits in bundled code are hard to validate from patterns alone."
      recommendation := "Escape user-influenced input before building a RegExp, or upgrade the bundled library that does not." },
    { chain := Rules.unprepared
      narrative := "Unprepared $wpdb queries were checked for constant SQL and for interpolated table names."
      recommendation := "Use $wpdb->prepare() for every query that includes a variable, and whitelist table or column names that cannot be parameterized."
      notes :=
        [ ⟨"constant-found-rows", " of them are constant queries that need no prepare()."⟩,
          ⟨"truncate-table", " of them truncate a table whose interpolated name must be confirmed internal."⟩ ] },
    { chain := Rules.missingCapCheck
      narrative := "Admin hooks flagged for a missing capability check were compared against WordPress menu registration calls, which take a capability argument."
      recommendation := "Confirm every admin hook and menu registration specifies an appropriate capability."
      notes :=
        [ ⟨"menu-registration", " of them register admin menus, where the WordPress menu API enforces the capability argument."⟩ ] },
    { chain := Rules.restNoPagination
      narrative := "REST routes flagged for missing pagination were checked for single-resource and action routes."
      recommendation := "For REST endpoints, confirm which routes return potentially large collections; add `per_page`/limit constraints there (action/single-item routes may not need pagination)."
      notes :=
        [ ⟨"single-resource-route", " of them are single-resource or action routes, where pagination does not apply."⟩ ] },
    { chain := Rules.ajaxPolling
      narrative := "AJAX polling loops were checked for focus gating; ungated loops need their interval and server-side throttling reviewed."
      recommendation := "Pause polling when the tab is hidden, use a generous interval, and throttle or cache the server-side handler." },
    { chain := Rules.unboundedQuery
      narrative := "Unbounded WP_Query calls were checked for ID-only result sets."
      recommendation := "Bound WP_Query calls with posts_per_page, or request `'fields' => 'ids'` when only IDs are needed."
      notes :=
        [ ⟨"ids-only-query", " of them fetch IDs only, which keeps the unbounded result cheap."⟩ ] },
    { chain := Rules.metadataInLoop
      narrative := "Metadata reads inside loops were checked for cache priming and loop shape: reads of one object's fields are a single query, while loops over many objects without priming are real N+1 patterns."
      recommendation := "Prime metadata caches (update_meta_cache(), cache_users(), update_post_caches()) before loops that read metadata of many objects." } ]

namespace Chain

def all : List Chain := Topic.all.map (·.chain)

def ofId? (id : Bytes) : Option Chain := all.find? (·.id == id)

def isKnown (id : Bytes) : Bool := (ofId? id).isSome

end Chain

namespace Finding

/-- The decision on a finding, or nothing if its identifier has no chain. -/
def classify? (f : Finding) : Option Decision :=
  (Chain.ofId? f.id).map (·.decide (.of f))

/-- Where a finding is, as its trace shows it. -/
def header (f : Finding) : Bytes := f.id ++ " " ++ f.file ++ ":" ++ Bytes.decimalInt64 f.line

/-- The decision on a finding with the lines of its trace: where the finding
is, each rule that was tried, and the outcome. -/
def trial (f : Finding) : Option Decision × List Bytes :=
  match Chain.ofId? f.id with
  | none => (none, [f.header, "  (unrecognized identifier, not triaged)"])
  | some chain =>
    let (d, attempts) := chain.evaluate (.of f)
    let outcome : Bytes := "  => " ++ d.classification.label ++ "/" ++ d.confidence.label
    (some d, f.header :: attempts ++ [outcome])

def explanation (f : Finding) : List Bytes := f.trial.2

/-- Classifies a finding for a tracer: the decision, and what the tracer
writes. Lines are made only for one that writes. -/
def classifyTraced (tracer : Tracer) (f : Finding) : Option Decision × Bytes :=
  if tracer.isEnabled then
    let (decision?, lines) := f.trial
    (decision?, tracer.write (.block lines))
  else (f.classify?, [])

end Finding

end ScanTriage
