import Covsight.Mem.Scope
import Mathlib.Algebra.Ring.Int.Defs

-- The reader of UCIS-XML documents, as far as it reads instances and their functional coverage. Histories and code
-- coverage leave covergroups alone.

namespace XmlReader

inductive Element
  | mk (tag : String) (attrib : Dict String String) (text : Option String) (children : List Element)

namespace Element

def tag : Element → String
  | mk tag _ _ _ => tag

def attrib : Element → Dict String String
  | mk _ attrib _ _ => attrib

def text : Element → Option String
  | mk _ _ text _ => text

def children : Element → List Element
  | mk _ _ _ children => children

mutual

-- The elements of a tag in document order, the element itself among them.
def iter (t : String) : Element → List Element
  | mk tag attrib text children => (if tag = t then [mk tag attrib text children] else []) ++ iterAll t children

def iterAll (t : String) : List Element → List Element
  | []      => []
  | e :: es => e.iter t ++ iterAll t es

end

def find (e : Element) (t : String) : Option Element :=
  e.children.find? (·.tag = t)

def localTag (tag : String) : String :=
  match tag.toList.dropWhile (· ≠ '}') with
  | []        => tag
  | _ :: rest => .ofList rest

mutual

def stripNamespaces : Element → Element
  | mk tag attrib text children => mk (localTag tag) attrib text (stripAll children)

def stripAll : List Element → List Element
  | []      => []
  | e :: es => e.stripNamespaces :: stripAll es

end

end Element

-- What is raised.
inductive XmlError
  | keyError (key : String)
  | valueError
  | typeError
  | attributeError
  | stopIteration
  | exception (message : String)
  deriving DecidableEq

-- The options of a covergroup, a cover instance or a coverpoint. A coverpoint has no use for what is said about
-- instances.
structure CvgOptions where
  weight          : Int := 1
  goal            : Int := -1
  atLeast         : Int := 1
  autoBinMax      : Int := 64
  detectOverlap   : Bool := true
  strobe          : Bool := false
  perInstance     : Bool := true
  mergeInstances  : Bool := true
  getInstCoverage : Bool := false
  deriving DecidableEq

-- The options that a covergroup and a cover instance have at first.
def CvgOptions.covergroup : CvgOptions :=
  { atLeast := 0, autoBinMax := 0 }

structure CvgBin where
  name  : String
  count : Int
  kind  : CoverTypeT := .cvgBin
  deriving DecidableEq

structure Coverpoint where
  name    : String
  options : CvgOptions := {}
  bins    : List CvgBin := []
  deriving DecidableEq

-- A cross knows its coverpoints by a name or by a position.
structure Cross (ι : Type) extends Coverpoint where
  coverpoints : List ι
  deriving DecidableEq

structure CoverInstance where
  name        : String
  options     : CvgOptions
  coverpoints : List Coverpoint
  crosses     : List (Cross Nat)
  deriving DecidableEq

-- A type of covergroups with its instances and what is reconstructed from them.
structure Covergroup where
  name        : String
  options     : CvgOptions
  instances   : List CoverInstance
  coverpoints : List Coverpoint
  crosses     : List (Cross String)
  deriving DecidableEq

-- An instance of a module; the one it is in is known by its position.
structure Instance where
  name        : String
  srcinfo     : Option SourceInfo
  parent      : Option Nat
  du          : String
  covergroups : List Covergroup
  deriving DecidableEq

structure Database where
  files     : Dict Int (Option String) := ∅
  modules   : List String := []
  instances : List Instance := []
  instIds   : Dict Int Nat := ∅

-- What `str.strip` takes away.
def isSpace (c : Char) : Bool :=
  9 ≤ c.toNat ∧ c.toNat ≤ 13 ∨ 28 ≤ c.toNat ∧ c.toNat ≤ 32 ∨ c.toNat = 0x85 ∨ c.toNat = 0xA0 ∨ c.toNat = 0x1680 ∨
    0x2000 ≤ c.toNat ∧ c.toNat ≤ 0x200A ∨ c.toNat ∈ [0x2028, 0x2029, 0x202F, 0x205F, 0x3000]

def strip (s : String) : String :=
  .ofList ((s.toList.dropWhile isSpace).reverse.dropWhile isSpace).reverse

def getAttr (e : Element) (name default : String) : String :=
  (e.attrib.get? name).getD default

-- An attribute that has to be there.
def attribOf (e : Element) (name : String) : Except XmlError String :=
  match e.attrib.get? name with
  | none      => .error (.keyError name)
  | some text => .ok text

-- The first element of a tag.
def next (e : Element) (t : String) : Except XmlError Element :=
  match (e.iter t).head? with
  | none   => .error .stopIteration
  | some e => .ok e

-- Elements one after the other, with something that each of them may change.
def readAll {σ α : Type} (read : Element → σ → Except XmlError (α × σ)) : List Element → σ → Except XmlError (List α × σ)
  | [],      s => .ok ([], s)
  | e :: es, s => do
    let (x, s)  ← read e s
    let (xs, s) ← readAll read es s
    return (x :: xs, s)

-- The numbers that texts are read as.
variable (int : String → Option Int)

def toInt (text : String) : Except XmlError Int :=
  match int text with
  | none   => .error .valueError
  | some n => .ok n

def getAttrInt (e : Element) (name : String) : Except XmlError Int := do
  toInt int (← attribOf e name)

def intIfEx (e : Element) (name : String) (default : Int) : Except XmlError Int :=
  match e.attrib.get? name with
  | none      => .ok default
  | some text => toInt int text

def boolIfEx (e : Element) (name : String) (default : Bool) : Bool :=
  match e.attrib.get? name with
  | none      => default
  | some text => text = "true"

def readOptions (e : Element) (ofGroup : Bool) (o : CvgOptions) : Except XmlError CvgOptions :=
  match e.find "options" with
  | none         => .ok o
  | some options => do
    let weight     ← intIfEx int options "weight" o.weight
    let goal       ← intIfEx int options "goal" o.goal
    let atLeast    ← intIfEx int options "at_least" o.atLeast
    let autoBinMax ← intIfEx int options "auto_bin_max" o.autoBinMax
    return {
      weight, goal, atLeast, autoBinMax
      perInstance     := if ofGroup then boolIfEx options "per_instance" o.perInstance else o.perInstance
      mergeInstances  := if ofGroup then boolIfEx options "merge_instances" o.mergeInstances else o.mergeInstances
      getInstCoverage := boolIfEx options "get_inst_coverage" o.getInstCoverage
      detectOverlap   := boolIfEx options "detect_overlap" o.detectOverlap
      strobe          := boolIfEx options "strobe" o.strobe }

def binKind : String → Except XmlError CoverTypeT
  | "bins" | "default" => .ok .cvgBin
  | "ignore"           => .ok .ignoreBin
  | "illegal"          => .ok .illegalBin
  | kind               => .error (.exception ("Unknown bin type " ++ kind))

-- The kind and the count of each bin of a type.
abbrev TypeBins := Dict String (CoverTypeT × Int)

-- The kind of a bin is the one it was seen with first.
def addCount : Option (CoverTypeT × Int) → CoverTypeT × Int → CoverTypeT × Int
  | none,              bin        => bin
  | some (kind, count), (_, count') => (kind, count + count')

-- The contents are those of the first sequence, or else of the first range.
def binContents (cpBin : Element) : Except XmlError Element :=
  match (cpBin.iter "sequence").head?, (cpBin.iter "range").head? with
  | some seq, _        => next seq "contents"
  | none,     some rng => next rng "contents"
  | none,     none     => .error (.exception "Format error: neither 'sequence' nor 'range' present")

def readCoverpointBin (cpBin : Element) (typeBins : TypeBins) : Except XmlError (CvgBin × TypeBins) := do
  let contents ← binContents cpBin
  let kind     ← binKind (getAttr cpBin "type" "default")
  let name     := getAttr cpBin "name" "<unknown>"
  let count    ← getAttrInt int contents "coverageCount"
  return (⟨name, count, kind⟩, typeBins.set name (addCount (typeBins.get? name) (kind, count)))

def readCoverpointInst (cp : Element) (typeBins : TypeBins) : Except XmlError (Coverpoint × TypeBins) := do
  let (bins, typeBins) ← readAll (readCoverpointBin int) (cp.iter "coverpointBin") typeBins
  return ({ name := getAttr cp "name" "<unknown>", bins }, typeBins)

-- The coverpoints of a type.
abbrev TypeCoverpoints := Dict String (CvgOptions × TypeBins)

-- A coverpoint that is new gives its options to its type.
def typeCoverpoint (cp : Element) (cps : TypeCoverpoints) : Except XmlError (CvgOptions × TypeBins) :=
  match cps.get? (getAttr cp "name" "<unknown>") with
  | none   => (readOptions int cp false {}).map (·, ∅)
  | some t => .ok t

def readCoverpoint (cp : Element) (cps : TypeCoverpoints) : Except XmlError (Coverpoint × TypeCoverpoints) := do
  let (options, typeBins) ← typeCoverpoint int cp cps
  let (point, typeBins)   ← readCoverpointInst int cp typeBins
  let options' ← readOptions int cp false point.options
  return ({ point with options := options' }, cps.set point.name (options, typeBins))

def readCrossBin (bin : Element) (typeBins : Dict String Int) : Except XmlError (CvgBin × Dict String Int) := do
  let name     := getAttr bin "name" "default"
  let contents ← next bin "contents"
  let count    ← getAttrInt int contents "coverageCount"
  return ({ name, count }, typeBins.set name ((typeBins.get? name).getD 0 + count))

-- The coverpoints that a cross names.
def crossed {ι : Type} (cr : Element) (lookup : String → Option ι) (message : String → String) :
    Except XmlError (List ι) :=
  (cr.iter "crossExpr").mapM fun crossExpr =>
    match crossExpr.text with
    | none      => .error .attributeError
    | some text =>
      match lookup (strip text) with
      | none   => .error (.exception (message (strip text)))
      | some i => .ok i

def readCrossInst (cr : Element) (typeBins : Dict String Int) (points : Dict String Nat) :
    Except XmlError (Cross Nat × Dict String Int) := do
  let name := getAttr cr "name" "<unknown>"
  let coverpoints ← crossed cr points.get? fun n => "Cross " ++ n ++ " references missing coverpoint " ++ n
  let (bins, typeBins) ← readAll (readCrossBin int) (cr.iter "crossBin") typeBins
  return ({ name, bins, coverpoints }, typeBins)

abbrev TypeCrosses := Dict String (List String × Dict String Int)

def typeCross (cps : TypeCoverpoints) (cr : Element) (crs : TypeCrosses) : Except XmlError (List String × Dict String Int) :=
  let name := getAttr cr "name" "<unknown>"
  match crs.get? name with
  | some t => .ok t
  | none   =>
    (crossed cr (fun n => if n ∈ cps then some n else none)
      fun n => "Cross " ++ name ++ " references missing coverpoint " ++ n).map (·, ∅)

def readCross (cps : TypeCoverpoints) (points : Dict String Nat) (cr : Element) (crs : TypeCrosses) :
    Except XmlError (Cross Nat × TypeCrosses) := do
  let (coverpoints, typeBins) ← typeCross cps cr crs
  let (cross, typeBins)       ← readCrossInst int cr typeBins points
  return (cross, crs.set cross.name (coverpoints, typeBins))

-- A later coverpoint of a name hides an earlier one from the crosses of its instance.
def readCoverInstance (cg : Element) (types : TypeCoverpoints × TypeCrosses) :
    Except XmlError (CoverInstance × TypeCoverpoints × TypeCrosses) := do
  let (cps, crs) := types
  let options            ← readOptions int cg true .covergroup
  let (coverpoints, cps) ← readAll (readCoverpoint int) (cg.iter "coverpoint") cps
  let points := Dict.ofList (coverpoints.map (·.name)).zipIdx
  let (crosses, crs)     ← readAll (readCross int cps points) (cg.iter "cross") crs
  return ({ name := getAttr cg "name" "<unknown>", options, coverpoints, crosses }, cps, crs)

def populateCoverpointType (name : String) (options : CvgOptions) (bins : TypeBins) : Coverpoint where
  name
  options
  bins := bins.entries.map fun (name, kind, count) => ⟨name, count, kind⟩

def populateCrossType (name : String) (coverpoints : List String) (bins : Dict String Int) : Cross String where
  name
  coverpoints
  bins := bins.entries.map fun (name, count) => { name, count }

def readCovergroup (name : String) (options : CvgOptions) (cgs : List Element) : Except XmlError Covergroup := do
  let (instances, cps, crs) ← readAll (readCoverInstance int) cgs (∅, ∅)
  return {
    name, options, instances
    coverpoints := cps.entries.map fun (name, options, bins) => populateCoverpointType name options bins
    crosses     := crs.entries.map fun (name, coverpoints, bins) => populateCrossType name coverpoints bins }

-- The name of the type of a cover instance.
def typeName (cg : Element) : String :=
  match (cg.iter "cgId").head? with
  | none      => "default"
  | some cgId => getAttr cgId "cgName" "xxx"

-- The cover instances of each type.
def typeInstances (cg : Element) : Dict String (List Element) :=
  (∅ : Dict String (List Element)).upserts (fun old i => old.getD [] ++ [i])
    ((cg.iter "cgInstance").map fun i => (typeName i, i))

-- A type has the options of its first instance.
def typeOptions : List Element → Except XmlError CvgOptions
  | []      => .ok .covergroup
  | cg :: _ => readOptions int cg true .covergroup

def readCovergroups (cg : Element) : Except XmlError (List Covergroup) :=
  (typeInstances cg).entries.mapM fun (name, cgs) => do
    readCovergroup int name (← typeOptions int cgs) cgs

def readSourceFile (srcFile : Element) (files : Dict Int (Option String)) : Except XmlError (Dict Int (Option String)) :=
  match srcFile.attrib.get? "id" with
  | none    => .error .typeError
  | some id => do return files.set (← toInt int id) (srcFile.attrib.get? "fileName")

def readStatementId (files : Dict Int (Option String)) (id : Element) : Except XmlError SourceInfo := do
  let fileId ← getAttrInt int id "file"
  let line   ← getAttrInt int id "line"
  let item   ← getAttrInt int id "inlineCount"
  match files.get? fileId with
  | none      => .error (.keyError (toString fileId))
  | some file => .ok ⟨file, line, item⟩

-- An id that was not given before stands for no parent.
def readInstanceCoverage (db : Database) (inst : Element) : Except XmlError Database := do
  let name        ← attribOf inst "name"
  let srcinfo     ← ((inst.iter "id").take 1).mapM (readStatementId int db.files)
  let parentId    ← (inst.attrib.get? "parentInstanceId").toList.mapM (toInt int)
  let instanceId  ← (inst.attrib.get? "instanceId").toList.mapM (toInt int)
  let covergroups ← (inst.iter "covergroupCoverage").mapM (readCovergroups int)
  let du := getAttr inst "moduleName" "default"
  return {
    db with
    modules   := if du ∈ db.modules then db.modules else db.modules ++ [du]
    instances := db.instances ++ [{
      name, du
      srcinfo     := srcinfo.head?
      parent      := parentId.head?.bind db.instIds.get?
      covergroups := covergroups.flatten }]
    instIds   := instanceId.foldl (fun ids id => ids.set id db.instances.length) db.instIds }

def read (document : Element) : Except XmlError Database := do
  let root  := document.stripNamespaces
  let files ← (root.iter "sourceFiles").foldlM (fun files srcFile => readSourceFile int srcFile files) ∅
  (root.iter "instanceCoverages").foldlM (readInstanceCoverage int) { files }

end XmlReader
