import ScanTriage.Triage.Chain

/-!
# Rules on request data

Superglobals written or read directly, and patterns built from variables.
-/

namespace ScanTriage

namespace Rules

/-- Whether the scanner answered at least one of its two questions. -/
def flagsKnown (e : Evidence) : Bool :=
  e.finding.guarded.isKnown || e.finding.sanitized.isKnown

/-- Whether the scanner's answers, an open one counting as no, are these. -/
def flagsAre (guarded sanitized : Bool) (e : Evidence) : Bool :=
  flagsKnown e && e.finding.guarded.isYes == guarded && e.finding.sanitized.isYes == sanitized

def directAccess (e : Evidence) : Bool :=
  List.isPrefixOf ("direct superglobal" : Bytes) (Text.lower (Text.trim e.finding.message))

def isComment (e : Evidence) : Bool :=
  List.isPrefixOf ("*" : Bytes) e.code || List.isPrefixOf ("/*" : Bytes) e.code ||
    List.isPrefixOf ("//" : Bytes) e.code

/-- The scanner's flags decide if it gave one of them; the text is looked at
only if it gave neither. -/
def superglobals : Chain where
  id := "spo-002-superglobals"
  category := "direct superglobal manipulation"
  rules :=
    [ .fixed "flags-guarded-sanitized" (flagsAre true true) .falsePositive .high
        "Scanner reports the write is guarded by an authorization/nonce check and the value is sanitized before use.",
      .fixed "flags-guarded-unsanitized" (flagsAre true false) .needsReview .medium
        "Scanner reports the write is guarded but the value is not shown to be sanitized; confirm it is constrained before use.",
      .fixed "flags-unguarded-sanitized" (flagsAre false true) .needsReview .medium
        "Scanner reports the value is sanitized but no authorization/nonce guard was found on the path; confirm who can reach it.",
      .fixed "flags-unguarded-unsanitized" flagsKnown .confirmed .high
        "Scanner reports neither an authorization/nonce guard nor sanitization for this superglobal write.",
      .fixed "comment-or-docblock" (fun e => directAccess e && isComment e) .falsePositive .high
        "This hit appears to be inside a comment/docblock (mentions superglobals but does not access them).",
      .fixed "nonce-helper-nearby" (fun e => directAccess e && e.textHas "verify_request_nonce")
        .falsePositive .medium
        "Nonce verification is performed via a helper (`verify_request_nonce`) in close proximity; direct access is part of a validated flow.",
      .fixed "request-write" (fun e => List.isPrefixOf ("$_REQUEST" : Bytes) e.code)
        .needsReview .medium
        "Writes to $_REQUEST; verify this cannot be influenced by attackers and does not bypass validation logic.",
      .fixed "vendor-location" (·.vendor) .needsReview .low
        "Located in vendored code; validate whether it is executed in your runtime context and whether upstream validation exists." ]
  fallback := .otherwise "superglobal-default" .needsReview .medium
    "Superglobal usage detected; confirm sanitization and nonce/capability checks for the execution path."

def unsanitizedRead : Chain where
  id := "unsanitized-superglobal-read"
  category := "unsanitized superglobal reads"
  rules :=
    [ .fixed "absint-cast-nearby" (·.textHas "absint(") .falsePositive .medium
        "Value is cast/sanitized (e.g., absint) in close proximity; ensure no earlier use of the raw value.",
      .fixed "admin-referer-check-nearby" (·.textHas "check_admin_referer") .falsePositive .medium
        "Nonce verification is present in the nearby control flow; remaining risk depends on usage of the value." ]
  fallback := .otherwise "unsanitized-read-default" .needsReview .medium
    "Superglobal value is read directly; verify sanitization/validation happens before use in sensitive sinks."

def escapeIdioms : List Bytes :=
  [ "replace(/([.*+?^$\x7b\x7d()|\\[\\]\\/\\\\])/g",
    "replace(/[.*+?^$\x7b\x7d()|[\\]\\\\]/g",
    "escapeRegExp(",
    "escapeRegex(",
    "preg_quote(" ]

/-- Escaping settles the matter; other people's code only lowers the
confidence. -/
def dynamicPattern : Chain where
  id := "hcc-008-unsafe-regexp"
  category := "dynamic RegExp construction"
  rules :=
    [ .fixed "regex-escaped" (·.textHasAny escapeIdioms) .falsePositive .high
        "The code escapes regex metacharacters before constructing RegExp, which mitigates injection.",
      .fixed "third-party-bundle" (·.thirdParty) .needsReview .low
        "The pattern is in bundled/minified or third-party code. Manual review needed to confirm whether the RegExp inputs are attacker-controlled and whether escaping/constraints exist upstream." ]
  fallback := .otherwise "regexp-default" .needsReview .medium
    "RegExp is constructed from a variable; confirm whether the variable is derived from user input and whether it is escaped/validated."

end Rules

end ScanTriage
