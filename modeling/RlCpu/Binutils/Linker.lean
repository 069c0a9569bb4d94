/-
**The linker (`linker.cpp`).**

An object has a text section, a data section and a map of labels. A word of a section that is marked in its
`labelMap` is the `uid` of a label; the linker puts the position of the label there. A label that is
imported is looked up by its name, up to the first `+` or `-`; the rest of the name is its shift.

Names are lists of characters, and the map of labels is the list of its entries in the order of their
names. The flags are numbers, as the source compares them with `0` and with `1`. Positions are `int`s and
do not come near their end; a word takes them modulo `2^16`.
-/

import RlCpu.Kernel.Word
import Mathlib.Data.List.Basic

namespace RlCpu.Binutils

open RlCpu.Kernel

/-- A name. -/
abbrev Name := List Char

/-- `O_MODE_ONESEG`, `O_MODE_TWOSEG`, `O_MODE_RAWBIN` -/
inductive Mode
  | oneSeg
  | twoSeg
  | rawBin
  deriving DecidableEq, Repr

/-- The sections of an object: `0` for text and `1` for data. -/
inductive Sect
  | text
  | data
  deriving DecidableEq, Repr

/-- `code_block_size` -/
abbrev codeBlockSize : Nat := 8

/-- `LabelEntry`; its name is the key in the map. -/
structure LabelEntry where
  sect : Sect
  uid : Word
  position : Int
  needExport : Nat
  needImport : Nat
  shift : Int
  deriving DecidableEq, Repr

/-- `LabelMap` -/
abbrev LabelMap := List (Name × LabelEntry)

/-- `Section` -/
structure Section where
  labelMap : Nat → Bool
  code : List Word
  offset : Nat

/-- An object: `sections[i]` and `labelsPerObj[i]`. -/
structure Obj where
  text : Section
  data : Section
  labels : LabelMap

/-- `sections[i][sect]` -/
def Obj.sections (obj : Obj) : Sect → Section
  | .text => obj.text
  | .data => obj.data

/-- What the linker is told: `mode`, `globalOffset` and `dataOffset`. -/
structure Config where
  mode : Mode
  globalOffset : Int
  dataOffset : Int

/-- What ends a link: `exit(1)`. -/
inductive LinkError
  | labelNotFound (uid : Word)
  | unresolved (name : Name)
  deriving DecidableEq

/-! ### Labels of an object file -/

/-- The value of a digit. -/
def digit (c : Char) : Int := (c.toNat - '0'.toNat : Nat)

/-- The 32 bits of an `int`, as a signed number. -/
def int32 (n : Int) : Int := n.bmod (2 ^ 32)

/-- A sum with one more summand, or one less. -/
def addSummand (cSub : Bool) (shRes cOp : Int) : Int := int32 (if cSub then shRes - cOp else shRes + cOp)

/-- The loop over the shift of a label; `none` for `Bad shift for label!`. -/
def shiftLoop (cSub : Bool) (shRes cOp : Int) : Name → Option Int
  | [] => some (addSummand cSub shRes cOp)
  | c :: rest =>
    if c.isDigit then shiftLoop cSub shRes (int32 (cOp * 10 + digit c)) rest
    else if c = '-' then shiftLoop true (addSummand cSub shRes cOp) 0 rest
    else if c = '+' then shiftLoop false (addSummand cSub shRes cOp) 0 rest
    else none

/-- A sign in a name starts its shift. -/
def isSign (c : Char) : Bool := c = '+' || c = '-'

/-- The shift of a label: from its first sign on. -/
def labelShift (labelName : Name) : Option Int :=
  if labelName.any isSign then shiftLoop false 0 0 (labelName.dropWhile fun c => !isSign c) else some 0

/-- A byte of an object file. -/
abbrev Byte := BitVec 8

/-- Two bytes as a number. -/
def word16 (high low : Byte) : Word := high ++ low

/-- `labels[labelName] = entry` -/
def setLabel (labelName : Name) (entry : LabelEntry) : LabelMap → LabelMap
  | [] => [(labelName, entry)]
  | (name, old) :: rest =>
    if labelName = name then (labelName, entry) :: rest
    else if labelName < name then (labelName, entry) :: (name, old) :: rest
    else (name, old) :: setLabel labelName entry rest

/-- The section of a label; one that is neither `0` nor `1` has no meaning to the linker. -/
def Sect.ofByte (sect : Byte) : Option Sect :=
  if sect = 0 then some .text else if sect = 1 then some .data else none

/-- One label of `convert8ToLabels`: its name is read up to the zero and its seven bytes after it. -/
def readLabel (src : List Byte) : Option (Name × LabelEntry × List Byte) := do
  let labelName := (src.takeWhile (· ≠ 0)).map fun b => Char.ofNat b.toNat
  match src.drop (labelName.length + 1) with
  | uidH :: uidL :: posH :: posL :: sect :: im :: ex :: rest =>
    let sect ← Sect.ofByte sect
    let shift ← labelShift labelName
    return (labelName, ⟨sect, word16 uidH uidL, (word16 posH posL).toNat, ex.toNat, im.toNat, shift⟩, rest)
  | _ => none

/-- `convert8ToLabels`; the bytes get fewer with each label. -/
def convert8ToLabels (labels : LabelMap) : (fuel : Nat) → List Byte → Option LabelMap
  | _, [] => some labels
  | 0, _ => none
  | fuel + 1, src => do
    let (labelName, entry, rest) ← readLabel src
    convert8ToLabels (setLabel labelName entry labels) fuel rest

/-! ### Offsets -/

/-- The offsets of sections of the sizes `sizes`, one after the other. -/
def offsetsFrom (cOffset : Nat) : List Nat → List Nat
  | [] => []
  | size :: sizes => cOffset :: offsetsFrom (cOffset + size) sizes

/-- The size of a section. -/
def Obj.size (obj : Obj) (sect : Sect) : Nat := (obj.sections sect).code.length

/-- The size of a section of all objects together. -/
def totalSize (sect : Sect) (objs : List Obj) : Nat := (objs.map fun obj => obj.size sect).sum

/-- Where the first data section is: behind the text, but for `O_MODE_TWOSEG`. -/
def dataStart (mode : Mode) (objs : List Obj) : Nat :=
  if mode = .twoSeg then 0 else totalSize .text objs

/-- The position of a label in the program. -/
def LabelEntry.place (config : Config) (textOffset dataOffset : Nat) (entry : LabelEntry) : LabelEntry :=
  if entry.needImport ≠ 1 then
    match entry.sect with
    | .text => { entry with
        position := entry.position + (config.globalOffset + textOffset) / codeBlockSize }
    | .data => { entry with
        position := entry.position + (config.globalOffset + dataOffset + config.dataOffset) }
  else entry

/-- An object with its sections at their offsets. -/
def Obj.place (config : Config) (obj : Obj) (textOffset dataOffset : Nat) : Obj where
  text := { obj.text with offset := textOffset }
  data := { obj.data with offset := dataOffset }
  labels := obj.labels.map fun label => (label.1, label.2.place config textOffset dataOffset)

/-- `computeOffsets` -/
def computeOffsets (config : Config) (objs : List Obj) : List Obj :=
  let textOffsets := offsetsFrom 0 (objs.map fun obj => obj.size .text)
  let dataOffsets := offsetsFrom (dataStart config.mode objs) (objs.map fun obj => obj.size .data)
  List.zipWith (fun obj (offsets : Nat × Nat) => obj.place config offsets.1 offsets.2) objs
    (textOffsets.zip dataOffsets)

/-! ### Names -/

/-- The name without its shift: up to the first sign, unless it starts with one. -/
def cropName (name : Name) : Name :=
  let cropped := name.takeWhile fun c => !isSign c
  if cropped = [] then name else cropped

/-- The label of a name in a map. -/
def LabelMap.find (labels : LabelMap) (name : Name) : Option LabelEntry :=
  (List.find? (fun label => label.1 = name) labels).map Prod.snd

/-- The definition of a name in an object. -/
def LabelMap.defines (labels : LabelMap) (name : Name) : Option LabelEntry :=
  (labels.find name).filter fun entry => entry.needImport = 0

/-- `findGlobalLabel`: the first object that has the name and does not import it. -/
def findGlobalLabel (labelsPerObj : List LabelMap) (name : Name) : Option LabelEntry :=
  labelsPerObj.findSome? fun labels => labels.defines (cropName name)

/-- One entry of `resolveNames`. -/
def resolveEntry (labelsPerObj : List LabelMap) (name : Name) (entry : LabelEntry) : LabelEntry :=
  if entry.needImport = 1 then
    match findGlobalLabel labelsPerObj name with
    | some found => { entry with position := found.position, sect := found.sect, needImport := 0 }
    | none => entry
  else entry

/-- The loop of `resolveNames` over the labels of an object: `done` are the entries before the iterator. -/
def resolveObject (before after : List LabelMap) (done : LabelMap) : LabelMap → LabelMap
  | [] => done
  | (name, entry) :: todo =>
    let labelsPerObj := before ++ (done ++ (name, entry) :: todo) :: after
    resolveObject before after (done ++ [(name, resolveEntry labelsPerObj name entry)]) todo

/-- `resolveNames`: `before` are the objects that are done. -/
def resolveNames (before : List LabelMap) : List LabelMap → List LabelMap
  | [] => before
  | labels :: after => resolveNames (before ++ [resolveObject before after [] labels]) after

/-! ### The program -/

/-- `findLabelByUid` -/
def findLabelByUid (uid : Word) (labelMap : LabelMap) : Option (Name × LabelEntry) :=
  labelMap.find? fun label => label.2.uid = uid

/-- The word of a label. -/
def relocate (labels : LabelMap) (labelUid : Word) : Except LinkError Word :=
  match findLabelByUid labelUid labels with
  | none => .error (.labelNotFound labelUid)
  | some (name, entry) =>
    if entry.needImport ≠ 0 then .error (.unresolved name)
    else .ok (BitVec.ofInt 16 (entry.position + entry.shift))

/-- `link`, for a section. -/
def linkSection (labels : LabelMap) (sect : Section) : Except LinkError Section := do
  let code ← sect.code.zipIdx.mapM fun (w, j) => if sect.labelMap j then relocate labels w else pure w
  return { sect with code := code }

/-- `link`, for an object. -/
def linkObj (obj : Obj) : Except LinkError Obj := do
  let text ← linkSection obj.labels obj.text
  let data ← linkSection obj.labels obj.data
  return { obj with text := text, data := data }

/-- `computeOffsets`, `resolveNames` and `link`. -/
def linkObjs (config : Config) (objs : List Obj) : Except LinkError (List Obj) :=
  let placed := computeOffsets config objs
  let labelsPerObj := resolveNames [] (placed.map Obj.labels)
  (List.zipWith (fun obj labels => { obj with labels := labels }) placed labelsPerObj).mapM linkObj

/-- The bytes of a word, high byte first. -/
def wordBytes (w : Word) : List Byte := [w.extractLsb' 8 8, w.extractLsb' 0 8]

/-- The bytes of a size. -/
def sizeBytes (cSize : Nat) : List Byte :=
  [0, BitVec.ofNat 8 (cSize / 65536), BitVec.ofNat 8 (cSize / 256), BitVec.ofNat 8 cSize]

/-- The mode, as a number. -/
def Mode.code : Mode → Byte
  | .oneSeg => 0
  | .twoSeg => 1
  | .rawBin => 2

/-- The header of a program. -/
def header (mode : Mode) (objs : List Obj) : List Byte :=
  if mode = .rawBin then []
  else ['\x00', 'R', '\x00', 'E', '\x00', 'X', '\x00', 'E'].map (fun c => BitVec.ofNat 8 c.toNat) ++
    [0, mode.code] ++ sizeBytes (totalSize .text objs) ++ sizeBytes (totalSize .data objs)

/-- The words of a section of all objects. -/
def sectionWords (sect : Sect) (objs : List Obj) : List Word :=
  objs.flatMap fun obj => (obj.sections sect).code

/-- `writeBin` -/
def writeBin (mode : Mode) (objs : List Obj) : List Byte :=
  header mode objs ++ (sectionWords .text objs ++ sectionWords .data objs).flatMap wordBytes

end RlCpu.Binutils
