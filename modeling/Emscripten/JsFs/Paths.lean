-- SUMMARY: Path strings of the JS file system: splitting, normalizing, joining, and the parts of a path.
import Mathlib.Data.List.Basic

/-!
# Path strings

The functions of `PATH` work on text. `parts` is the split that all of them start from.
-/

namespace JsFs

abbrev Path := List Char

abbrev Name := List Char

def dot : Name := ['.']

def dotDot : Name := ['.', '.']

namespace Path

/-- `path.split('/').filter((p) => !!p)`. -/
def parts (path : Path) : List Name := (path.splitOn '/').filter (· ≠ [])

/-- `parts.join('/')`. -/
def join (parts : List Name) : Path := List.intercalate ['/'] parts

def isAbs (path : Path) : Bool := path.head? = some '/'

/-- One turn of `normalizeArray`, which goes through the parts from the last to the first. -/
def normalizePart (p : Name) (state : List Name × Nat) : List Name × Nat :=
  if p = dot then state
  else if p = dotDot then (state.1, state.2 + 1)
  else if state.2 = 0 then (p :: state.1, 0)
  else (state.1, state.2 - 1)

/-- Drop every "." and every part that a ".." takes back. -/
def normalizeArray (parts : List Name) (allowAboveRoot : Bool) : List Name :=
  let (kept, up) := parts.foldr normalizePart ([], 0)
  if allowAboveRoot then List.replicate up dotDot ++ kept else kept

def normalize (path : Path) : Path :=
  let isAbsolute := isAbs path
  let trailingSlash := path.getLast? = some '/'
  let joined := join (normalizeArray (parts path) (!isAbsolute))
  let text := if joined = [] ∧ !isAbsolute then dot else joined
  (if isAbsolute then ['/'] else []) ++
    (if text ≠ [] ∧ trailingSlash then text ++ ['/'] else text)

/-- Without the slashes at its end. -/
def stripSlashes (path : Path) : Path := (path.reverse.dropWhile (· = '/')).reverse

/-- What `splitPath` takes as the root and the directory of a path: all but its last part. The
root is a slash in front, the slash between the two is dropped. -/
def dirname (path : Path) : Path :=
  let root := if isAbs path then ['/'] else []
  let rest := stripSlashes (path.drop root.length)
  let dir := (rest.reverse.dropWhile (· ≠ '/')).reverse
  if root = [] ∧ dir = [] then dot else root ++ dir.dropLast

/-- The last part, or a slash where there are only slashes. -/
def basename (path : Path) : Name :=
  if path = [] then []
  else if stripSlashes path = [] then ['/']
  else ((stripSlashes path).reverse.takeWhile (· ≠ '/')).reverse

def join2 (l r : Path) : Path := normalize (l ++ '/' :: r)

/-! ## Paths against the current directory -/

/-- The loop of `PATH_FS.resolve` on one argument. An empty path invalidates the result. -/
def resolve (cwd path : Path) : Path :=
  if path = [] then []
  else if isAbs path then '/' :: join (normalizeArray (parts (path ++ ['/'])) false)
  else if cwd = [] then []
  else
    let absolute := isAbs cwd
    let text := join (normalizeArray (parts (cwd ++ '/' :: (path ++ ['/']))) (!absolute))
    let resolved := (if absolute then ['/'] else []) ++ text
    if resolved = [] then dot else resolved

/-- The `trim` inside `PATH_FS.relative`. The second argument of its `slice` is a length, not an index:
it cuts too much where there is something to trim in front. -/
def trim (arr : List Name) : List Name :=
  let start := arr.findIdx (· ≠ [])
  let stop := arr.length - arr.reverse.findIdx (· ≠ [])
  if stop ≤ start then [] else (arr.take (stop - start)).drop start

/-- What two lists have in common at their start is dropped from both. -/
def dropCommon : List Name → List Name → List Name × List Name
  | a :: as, b :: bs => if a = b then dropCommon as bs else (a :: as, b :: bs)
  | as, bs => (as, bs)

/-- `PATH_FS.relative`. -/
def relative (cwd source target : Path) : Path :=
  let fromParts := trim (((resolve cwd source).drop 1).splitOn '/')
  let toParts := trim (((resolve cwd target).drop 1).splitOn '/')
  let (up, down) := dropCommon fromParts toParts
  join (List.replicate up.length dotDot ++ down)

end Path

end JsFs
