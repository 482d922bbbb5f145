import ScanTriage.Text.Case
import ScanTriage.Text.Space
import ScanTriage.Finding

/-!
# Evidence

What the rules look at: where the file lies, the flagged line, the flagged
line together with its context, and that text without white space, so that a
marker matches whatever the spacing.
-/

namespace ScanTriage

namespace SourcePath

def normalize (path : Bytes) : Bytes := Bytes.replaceByte Bytes.backslash Bytes.slash path

/-- The path with a slash in front, so that a directory at its start is
enclosed by slashes as well. -/
def rooted (path : Bytes) : Bytes :=
  if path.head? == some Bytes.slash then path else Bytes.slash :: path

def vendorMarkers : List Bytes :=
  ["/vendor/", "/vendor_prefixed/", "/node_modules/", "/assets/lib/"]

def minifiedSuffixes : List Bytes := [".min.js", ".min.css"]

def isVendor (path : Bytes) : Bool :=
  let path := rooted (normalize path)
  vendorMarkers.any (Bytes.occurs · path)

def isMinified (path : Bytes) : Bool :=
  let path := Text.lower path
  minifiedSuffixes.any (List.isSuffixOf · path)

end SourcePath

/-- The first marker, in the order of the list, that occurs in a text. -/
def firstIn? (text : Bytes) (markers : List Bytes) : Option Bytes :=
  markers.find? (Bytes.occurs · text)

structure Evidence where
  finding : Finding
  /-- The file in lower case, with forward slashes and one in front. -/
  path : Bytes
  vendor : Bool
  minified : Bool
  /-- The flagged line without the white space around it. -/
  code : Bytes
  /-- The code followed by every snippet of the context. -/
  text : Bytes
  /-- The text without white space. -/
  compact : Bytes

namespace Evidence

def proximate (code : Bytes) (context : List Snippet) : Bytes :=
  code ++ context.flatMap (·.code)

def of (f : Finding) : Evidence :=
  let code := Text.trim f.code
  let text := proximate code f.context
  { finding := f
    path := SourcePath.rooted (Text.lower (SourcePath.normalize f.file))
    vendor := SourcePath.isVendor f.file
    minified := SourcePath.isMinified f.file
    code := code
    text := text
    compact := Text.compact text }

def codeHas (e : Evidence) (part : Bytes) : Bool := Bytes.occurs part e.code

def textHas (e : Evidence) (part : Bytes) : Bool := Bytes.occurs part e.text

def textHasAny (e : Evidence) (parts : List Bytes) : Bool := (firstIn? e.text parts).isSome

def compactHasAny (e : Evidence) (markers : List Bytes) : Bool :=
  (firstIn? e.compact markers).isSome

def pathHasAny (e : Evidence) (fragments : List Bytes) : Bool :=
  (firstIn? e.path fragments).isSome

def thirdParty (e : Evidence) : Bool := e.vendor || e.minified

end Evidence

end ScanTriage
