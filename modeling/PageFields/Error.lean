import PageFields.Glob.Pattern

/-! # Errors

Every operation that fails says why by a value of `Error`: a cause with the names and numbers that
belong to it. `Error.message` is its wording, `Error.help` what to do about it and `Error.code` its
short name. The wording of a failure inside the file system or a configuration file is not ours. -/

namespace PageFields

/-- Why the file system refused an operation. -/
inductive IoFault
  | notFound
  | alreadyExists
  | notADirectory
  | isADirectory
  /-- The path has a NUL character. -/
  | invalidInput
  /-- A name or a path is too long. -/
  | invalidFilename
  /-- The bytes of the file are no text. -/
  | invalidData
  | resourceBusy
  /-- The system refuses for a reason that does not lie in the file tree, such as a full disk. -/
  | system (name : String)
  deriving DecidableEq, Repr

/-- The name of a fault of the file system. -/
def IoFault.name : IoFault → String
  | .notFound => "NotFound"
  | .alreadyExists => "AlreadyExists"
  | .notADirectory => "NotADirectory"
  | .isADirectory => "IsADirectory"
  | .invalidInput => "InvalidInput"
  | .invalidFilename => "InvalidFilename"
  | .invalidData => "InvalidData"
  | .resourceBusy => "ResourceBusy"
  | .system name => name

/-- What is wrong with a name. -/
inductive NameFault
  /-- There is no name of the labelled sort. -/
  | missing (label : Text)
  /-- A character is neither an ASCII letter or digit nor one of `extra`. -/
  | alphabet (label extra : Text)
  /-- No character is an ASCII letter or digit. -/
  | noAlphanumeric (label : Text)
  /-- The name of a field is no identifier. -/
  | notAnIdentifier
  /-- Nothing is named where an item has to be. -/
  | noItem
  /-- No project is named. -/
  | noProject
  deriving DecidableEq, Repr

/-- The wording of a fault in a name. -/
def NameFault.message : NameFault → String
  | .missing label => "no " ++ label.shown ++ " given"
  | .alphabet label extra =>
    "the " ++ label.shown ++ " may only contain ASCII letters, digits and " ++
      ", ".intercalate (extra.map fun c => "`" ++ c.toString ++ "`")
  | .noAlphanumeric label => "the " ++ label.shown ++ " needs at least one letter or digit"
  | .notAnIdentifier =>
    "field names may only contain ASCII letters, digits and `_`, and must not start with a digit"
  | .noItem => "no item name given"
  | .noProject => "templates belong to a project, name one"

/-- What is wrong with an edit of a plain file. -/
inductive EditFault
  | wholeContentOnly
  | cannotExtend
  deriving DecidableEq, Repr

/-- The wording of a fault in an edit. -/
def EditFault.message : EditFault → String
  | .wholeContentOnly => "plain files only accept the whole content"
  | .cannotExtend => "plain files cannot extend a template"

/-- Why an operation failed. -/
inductive Error
  | io (fault : IoFault)
  | notFound (path : Text)
  | parentNotFound (name : Text)
  | unclosedBlock (name : Text) (line : Nat)
  | unclosedDirective (line : Nat)
  | missingBlockName (line : Nat)
  | mismatchedEnd (expected found : Text) (line : Nat)
  | duplicateBlock (name : Text) (line : Nat)
  | conflict (path : Text)
  | invalidEncoding (path : Text)
  | fileTooLarge (path : Text) (size limit : Nat)
  | pathEscape (path : Text)
  | alreadyExists (path : Text)
  | notEditable (path : Text)
  | invalidName (name : Text) (fault : NameFault)
  | invalidEdit (path : Text) (fault : EditFault)
  | configSyntax
  | invalidPattern (pattern : Text) (fault : Glob.Fault)
  deriving DecidableEq, Repr

namespace Error

/-- The short name of an error. -/
def code : Error → String
  | .io _ => "io_error"
  | .notFound _ => "not_found"
  | .parentNotFound _ => "parent_not_found"
  | .unclosedBlock _ _ => "unclosed_block"
  | .unclosedDirective _ => "unclosed_directive"
  | .missingBlockName _ => "missing_block_name"
  | .mismatchedEnd _ _ _ => "mismatched_endblock"
  | .duplicateBlock _ _ => "duplicate_block"
  | .conflict _ => "conflict"
  | .invalidEncoding _ => "invalid_encoding"
  | .fileTooLarge _ _ _ => "file_too_large"
  | .pathEscape _ => "path_escape"
  | .alreadyExists _ => "already_exists"
  | .notEditable _ => "not_editable"
  | .invalidName _ _ => "invalid_name"
  | .invalidEdit _ _ => "invalid_edit"
  | .configSyntax => "config_parse"
  | .invalidPattern _ _ => "invalid_pattern"

/-- The wording of an error, where it is ours. -/
def message? : Error → Option String
  | .io _ => none
  | .configSyntax => none
  | .notFound path => some ("not found: `" ++ path.shown ++ "`")
  | .parentNotFound name => some ("parent template not found: `" ++ name.shown ++ "`")
  | .unclosedBlock name line =>
    some ("missing `endblock` for block `" ++ name.shown ++ "` opened on line " ++ line.repr)
  | .unclosedDirective line =>
    some ("directive opened on line " ++ line.repr ++ " is never closed")
  | .missingBlockName line => some ("`block` directive on line " ++ line.repr ++ " has no name")
  | .mismatchedEnd expected found line =>
    some ("`endblock " ++ found.shown ++ "` on line " ++ line.repr ++ " closes block `" ++
      expected.shown ++ "`")
  | .duplicateBlock name line =>
    some ("block `" ++ name.shown ++ "` on line " ++ line.repr ++ " is defined twice")
  | .conflict path => some ("`" ++ path.shown ++ "` was changed on disk since it was read")
  | .invalidEncoding path => some ("`" ++ path.shown ++ "` is not valid UTF-8")
  | .fileTooLarge path size limit =>
    some ("file too large: `" ++ path.shown ++ "` is " ++ size.repr ++ " bytes (limit: " ++
      limit.repr ++ " bytes)")
  | .pathEscape path => some ("path escapes the projects directory: `" ++ path.shown ++ "`")
  | .alreadyExists path => some ("already exists: `" ++ path.shown ++ "`")
  | .notEditable path => some ("`" ++ path.shown ++ "` cannot be edited")
  | .invalidName name fault => some ("invalid name `" ++ name.shown ++ "`: " ++ fault.message)
  | .invalidEdit path fault => some ("invalid edit for `" ++ path.shown ++ "`: " ++ fault.message)
  | .invalidPattern pattern fault =>
    some ("invalid pattern `" ++ pattern.shown ++ "`: error parsing glob '" ++ pattern.shown ++
      "': " ++ fault.message)

/-- What to do about an error. -/
def help? : Error → Option String
  | .notFound _ => some "create the item first with `pagesmith create`"
  | .parentNotFound _ => some
    "parent template names are relative to the project directory, e.g. `templates/base.html`"
  | .unclosedBlock _ _ => some "add `\x7b% endblock %\x7d` to close this block"
  | .unclosedDirective _ => some "close the directive with `%\x7d`"
  | .missingBlockName _ => some "name the block, e.g. `\x7b% block content %\x7d`"
  | .duplicateBlock _ _ => some "each top-level block name must be unique within a template"
  | .conflict _ => some "read the file again to get a fresh fingerprint, then re-apply the edit"
  | .fileTooLarge _ _ _ => some "increase `max_file_size` in pagesmith.toml"
  | .notEditable _ => some "only files can be edited"
  | .configSyntax => some "check that pagesmith.toml is valid TOML"
  | _ => none

/-- The error says that the structure of a template is broken. -/
def isParseFailure : Error → Bool
  | .unclosedBlock _ _ | .unclosedDirective _ | .missingBlockName _ | .mismatchedEnd _ _ _
  | .duplicateBlock _ _ => true
  | _ => false

end Error

end PageFields
