import ScanTriage.Text.Bytes

/-!
# Version text
-/

namespace ScanTriage

structure Version where
  release : Bytes := "dev"
  commit : Bytes := []

/-- The version as it is shown; the commit only of a build between releases. -/
def Version.render (v : Version) : Bytes :=
  if v.release != "dev" || v.commit.isEmpty then v.release
  else v.release ++ " (" ++ v.commit ++ ")"

end ScanTriage
