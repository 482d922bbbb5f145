import ScanTriage.Triage.Chain

/-!
# Rules on shipped code and endpoints

Debugger statements, remote requests, admin hooks, REST routes and polling.
-/

namespace ScanTriage

namespace Rules

/-- Confirmed wherever it stands. -/
def debugCode : Chain where
  id := "spo-001-debug-code"
  category := "debugger statements"
  rules := []
  fallback := .otherwise "debugger-always-confirmed" .confirmed .high
    "Contains a `debugger;` statement in shipped JS. This pauses execution whenever devtools are open and is normally unintended for production builds (even if located in a vendored library)."

/-- Confirmed wherever it stands. -/
def httpNoTimeout : Chain where
  id := "http-no-timeout"
  category := "HTTP requests without timeout"
  rules := []
  fallback := .otherwise "http-timeout-always-confirmed" .confirmed .medium
    "Remote requests should pass an explicit timeout to avoid long hangs under network issues; WordPress applies a default, but relying on it hides the intended bound."

def missingCapCheck : Chain where
  id := "spo-004-missing-cap-check"
  category := "admin capability checks"
  rules :=
    [ .fixed "menu-registration" (fun e => e.codeHas "add_menu_page" || e.codeHas "add_submenu_page")
        .falsePositive .medium
        "Menu registration typically includes a capability argument; confirm the capability is specified and appropriate." ]
  fallback := .otherwise "cap-check-default" .needsReview .medium
    "Heuristic check: confirm this admin hook/output is gated by capability or only displays non-sensitive content."

def restNoPagination : Chain where
  id := "rest-no-pagination"
  category := "REST pagination"
  rules :=
    [ .fixed "single-resource-route" (fun e => e.codeHas "/(?P<id>" || e.textHas "CREATABLE")
        .falsePositive .medium
        "Endpoint appears to be a single-resource/action route, not a list endpoint; pagination guards are less applicable." ]
  fallback := .otherwise "rest-default" .needsReview .medium
    "Check whether this endpoint returns unbounded lists; if so add per_page/limit constraints."

def ajaxPolling : Chain where
  id := "ajax-polling-unbounded"
  category := "unbounded AJAX polling"
  rules :=
    [ .fixed "focus-gated" (·.textHas "isFocused") .falsePositive .medium
        "Polling is gated by focus/background checks; confirm interval duration and server-side throttling.",
      .fixed "third-party-bundle" (·.thirdParty) .needsReview .low
        "Bundled/minified code; verify interval duration and whether it can cause excessive server load." ]
  fallback := .otherwise "polling-default" .needsReview .medium
    "setInterval polling detected; verify interval, cancelation, and server-side rate limiting/caching."

end Rules

end ScanTriage
