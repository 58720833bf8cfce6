import Adios2.Core.IoDefinitions

-- The names of an IO as a tree of groups. A group is a path and a delimiter; all groups that come
-- from one `CreateGroup` share one map from paths to what stands below them.

namespace GroupView

open Bytes BP5 IoDefinitions

-- What an IO tells about names. `validStep` is whether a variable can be used in the current step:
-- always so, unless the IO is read step by step.
structure Io where
  vars      : List (Name × DataType)
  attrs     : List Name
  validStep : Name → Bool
  nodup     : (vars.map Prod.fst).Nodup
  typed     : ∀ x ∈ vars, x.2 ≠ .none

def Io.inquireVariableType (io : Io) (name : Name) : DataType :=
  match io.vars.lookup name with
  | none      => .none
  | some type => if type = .struct ∨ io.validStep name then type else .none

-- `InquireVariable<T>`, with the variable for the pointer to it.
def Io.inquireVariable (io : Io) (T : DataType) (name : Name) : Option Name :=
  match io.vars.lookup name with
  | none      => none
  | some type => if type = T ∧ io.validStep name then some name else none

-- The artificial root, `_ADIOS_ROOT_`.
def adiosRoot : Name := [95, 65, 68, 73, 79, 83, 95, 82, 79, 79, 84, 95]

abbrev TreeMap := Map (List Name)

-- What `treeMap[key]` reads.
def children (tree : TreeMap) (key : Name) : List Name := (tree key).getD []

-- What `treeMap[key]` leaves behind.
def touch (tree : TreeMap) (key : Name) : TreeMap :=
  match tree key with
  | none   => tree.emplace key []
  | some _ => tree

-- The sets are kept in order.
def insertName (value : Name) (names : List Name) : List Name :=
  if value ∈ names then names else names.orderedInsert (· ≤ ·) value

-- `std::getline` until the end of the string: no token follows a delimiter at the end.
def split (s : Name) (delimiter : Byte) : List Name :=
  let tokens := s.splitOn delimiter
  if tokens.getLast? = some [] then tokens.dropLast else tokens

def join (delimiter : Byte) (path name : Name) : Name := path ++ delimiter :: name

-- The loop through the levels.
def insertLevels (delimiter : Byte) : TreeMap → Name → List Name → TreeMap
  | tree, _, []               => tree
  | tree, key, value :: others =>
    insertLevels delimiter (tree.emplace key (insertName value (children tree key)))
      (join delimiter key value) others

def insertTokens (delimiter : Byte) (tree : TreeMap) : List Name → TreeMap
  | []           => tree
  | key :: levels => insertLevels delimiter tree key levels

-- The tokens with the root in front. `tokens[0]` has to be there.
def addRoot : List Name → Outcome (List Name)
  | []           => .error .undefined
  | [] :: others => .ok (adiosRoot :: others)
  | tokens       => .ok (adiosRoot :: tokens)

-- One variable. It is here that the path of the group is set to the root.
def addVariable (delimiter : Byte) (state : Name × TreeMap) (name : Name) :
    Outcome (Name × TreeMap) := do
  let tokens ← addRoot (split name delimiter)
  pure (adiosRoot, insertTokens delimiter state.2 tokens)

def addAttribute (delimiter : Byte) (tree : TreeMap) (name : Name) : TreeMap :=
  insertTokens delimiter tree (split name delimiter)

def buildTree (io : Io) (delimiter : Byte) (currentPath : Name) (tree : TreeMap) :
    Outcome (Name × TreeMap) := do
  let (currentPath, tree) ← (io.vars.map Prod.fst).foldlM (addVariable delimiter) (currentPath, tree)
  pure (currentPath, io.attrs.foldl (addAttribute delimiter) tree)

-- `IO::CreateGroup`: the path of the group it returns, and the map.
def createGroup (io : Io) (delimiter : Byte) : Outcome (Name × TreeMap) :=
  buildTree io delimiter [] .empty

def inquireGroup (delimiter : Byte) (currentPath groupName : Name) : Name :=
  if currentPath = [] then groupName else join delimiter currentPath groupName

-- `substr(ADIOS_root.size() + 1, ..)`.
def cutRoot (path : Name) : Outcome Name :=
  if path.length < adiosRoot.length + 1 then
    .error (.logicError "basic_string::substr")
  else
    .ok (path.drop (adiosRoot.length + 1))

-- The loop through the names below a path: those that are not keys, and that are among `known`
-- without the root.
def listing (delimiter : Byte) (known : List Name) (tree : TreeMap) (currentPath : Name) :
    List Name → Outcome (List Name)
  | []          => .ok []
  | v :: others =>
    if (tree (join delimiter currentPath v)).isSome then
      listing delimiter known tree currentPath others
    else do
      let path ← cutRoot (join delimiter currentPath v)
      let rest ← listing delimiter known tree currentPath others
      pure (if path ∈ known then v :: rest else rest)

def availableVariables (io : Io) (delimiter : Byte) (tree : TreeMap) (currentPath : Name) :
    Outcome (List Name) × TreeMap :=
  let tree' := touch tree currentPath
  (listing delimiter (io.vars.map Prod.fst) tree' currentPath (children tree currentPath), tree')

def availableAttributes (io : Io) (delimiter : Byte) (tree : TreeMap) (currentPath : Name) :
    Outcome (List Name) × TreeMap :=
  let tree' := touch tree currentPath
  (listing delimiter io.attrs tree' currentPath (children tree currentPath), tree')

def availableGroups (delimiter : Byte) (tree : TreeMap) (currentPath : Name) :
    List Name × TreeMap :=
  let tree' := touch tree currentPath
  ((children tree currentPath).filter fun v => (tree' (join delimiter currentPath v)).isSome, tree')

-- `InquireVariable<T>` of a group, which ends the program where `substr` throws.
def inquireVariable (io : Io) (delimiter : Byte) (currentPath : Name) (T : DataType) (name : Name) :
    Outcome (Option Name) :=
  io.inquireVariable T <$> cutRoot (join delimiter currentPath name)

-- `InquireAttribute<T>` for the type of the attribute, and no name of a variable.
def inquireAttribute (io : Io) (delimiter : Byte) (currentPath : Name) (name : Name) :
    Outcome (Option Name) :=
  (fun path => io.attrs.find? (· = path)) <$> cutRoot (join delimiter currentPath name)

def inquireVariableType (io : Io) (delimiter : Byte) (currentPath : Name) (name : Name) : DataType :=
  io.inquireVariableType (join delimiter currentPath name)

-- The queries that read the map.
inductive Query
  | availableVariables
  | availableAttributes
  | availableGroups
  deriving DecidableEq, Repr

def ask (io : Io) (delimiter : Byte) (tree : TreeMap) (currentPath : Name) :
    Query → Outcome (List Name) × TreeMap
  | .availableVariables  => availableVariables io delimiter tree currentPath
  | .availableAttributes => availableAttributes io delimiter tree currentPath
  | .availableGroups     =>
    let (groups, tree') := availableGroups delimiter tree currentPath
    (.ok groups, tree')

-- The map after some queries, each with the path of the group it is made to.
def askAll (io : Io) (delimiter : Byte) (tree : TreeMap) (queries : List (Name × Query)) : TreeMap :=
  queries.foldl (fun tree q => (ask io delimiter tree q.1 q.2).2) tree

end GroupView
