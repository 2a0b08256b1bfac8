import Asm6510.Analysis.Basic
import Asm6510.Sha256
import Asm6510.Text.Utf8

/-!
# Remembered analyses

* `Cache`: the last analysis of each document. It is used again while the digest of the text, the
  identity of the reference and the settings are the same.
* `Session`: a cache together with the reference that is used when none is given.
-/

namespace Asm6510

/-- The digest of a text. -/
def contentDigest (text : String) : String :=
  Sha256.hexDigest (Text.encodeUtf8 text)

/-- A reference that several parties share; the identity tells shared references apart. -/
structure SharedReference where
  id : String
  reference : Reference

/-- A remembered analysis and what it was made from. -/
structure CacheEntry where
  digest : String
  referenceId : Option String
  settings : Settings
  /-- The running number of the analysis. -/
  serial : Nat
  analysis : Analysis

/-- Whether an entry was made from the same things. -/
def CacheEntry.fits (e : CacheEntry) (digest : String) (referenceId : Option String)
    (settings : Settings) : Bool :=
  e.digest == digest && e.referenceId == referenceId && e.settings == settings

/-- The last analysis of each document. -/
structure Cache where
  entries : List (String × CacheEntry)
  hits : Nat
  misses : Nat
  /-- The number of analyses made so far. -/
  made : Nat

namespace Cache

/-- Nothing remembered. -/
def empty : Cache :=
  ⟨[], 0, 0, 0⟩

/-- The number of remembered analyses. -/
def size (c : Cache) : Nat :=
  c.entries.length

/-- The remembered analysis of a document. -/
def get? (c : Cache) (uri : String) : Option CacheEntry :=
  c.entries.lookup uri

/-- Forgets a document. -/
def invalidate (c : Cache) (uri : String) : Cache :=
  { c with entries := c.entries.filter fun e => e.1 != uri }

/-- Forgets everything and starts counting anew. -/
def clear (c : Cache) : Cache :=
  { c with entries := [], hits := 0, misses := 0 }

/-- Remembers an analysis; documents without a program are not remembered. -/
def store (c : Cache) (uri : String) (entry : CacheEntry) : Cache :=
  if entry.analysis.program.isSome then
    { c.invalidate uri with entries := (uri, entry) :: (c.invalidate uri).entries }
  else c

/-- A request for the analysis of a document: the analysis with its running number, from memory if
possible, and the memory behind the request. -/
def request (c : Cache) (ref : Option SharedReference) (settings : Settings) (uri text : String) :
    Except ParseFault (Nat × Analysis) × Cache :=
  let digest := contentDigest text
  let referenceId := ref.map SharedReference.id
  match (c.get? uri).filter fun e => e.fits digest referenceId settings with
  | some e => (.ok (e.serial, e.analysis), { c with hits := c.hits + 1 })
  | none =>
    match Asm6510.analyze (ref.map SharedReference.reference) settings uri text with
    | .error fault => (.error fault, c)
    | .ok analysis =>
      let entry : CacheEntry := ⟨digest, referenceId, settings, c.made, analysis⟩
      let counted := { c with misses := c.misses + 1, made := c.made + 1 }
      (.ok (entry.serial, analysis), counted.store uri entry)

end Cache

/-- A cache and the installed reference. -/
structure Session where
  cache : Cache
  installed : Option SharedReference

namespace Session

/-- A session in which nothing was done yet. -/
def empty : Session :=
  ⟨.empty, none⟩

/-- The reference that is used: the given one, else the installed one. -/
def reference (s : Session) (given : Option SharedReference) : Option SharedReference :=
  given <|> s.installed

/-- Installs a reference, or none. -/
def install (s : Session) (ref : Option SharedReference) : Session :=
  { s with installed := ref }

/-- A request in the session, with the session behind it. -/
def request (s : Session) (given : Option SharedReference) (settings : Settings)
    (uri text : String) : Except ParseFault (Nat × Analysis) × Session :=
  let (result, cache) := s.cache.request (s.reference given) settings uri text
  (result, { s with cache })

/-- Analyzes a document with memory. -/
def analyzeCached (s : Session) (given : Option SharedReference) (settings : Settings)
    (uri text : String) : Except ParseFault ((Nat × Analysis) × Session) :=
  match s.request given settings uri text with
  | (.error fault, _) => .error fault
  | (.ok result, s) => .ok (result, s)

/-- Analyzes a document anew. -/
def analyzeFresh (s : Session) (given : Option SharedReference) (settings : Settings)
    (uri text : String) : Except ParseFault Analysis :=
  analyze ((s.reference given).map SharedReference.reference) settings uri text

end Session

end Asm6510
