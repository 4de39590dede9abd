import MarkdownDirectives.Number.Decimal

/-!
# Errors

Each way to fail is a cause. A cause has a message and a diagnostic code, and some have a hint for
the reader.
-/

namespace MarkdownDirectives

inductive FileError where
  | notFound
  | isFolder
  | notFolder
  | busy
  | invalidMove
  | notText
  | nulCharacter
  deriving DecidableEq, Repr

def FileError.message : FileError → Text
  | .notFound => "No such file or directory (os error 2)".toList
  | .isFolder => "Is a directory (os error 21)".toList
  | .notFolder => "Not a directory (os error 20)".toList
  | .busy => "Device or resource busy (os error 16)".toList
  | .invalidMove => "Invalid argument (os error 22)".toList
  | .notText => "stream did not contain valid UTF-8".toList
  | .nulCharacter => "file name contained an unexpected NUL byte".toList

inductive MetadataFault where
  | unreadable (error : FileError)
  | malformed
  | nonFiniteFloat
  | noTable
  deriving DecidableEq, Repr

def MetadataFault.message : MetadataFault → Text
  | .unreadable error => error.message
  | .malformed => ['*']
  | .nonFiniteFloat => "non-finite float".toList
  | .noTable => "the top level must be a table or object".toList

inductive Error where
  | file (error : FileError)
  | unterminatedDirective (expression : Text) (line : Nat)
  | malformedExpression (expression : Text) (offset : Nat) (reason : Text)
  | undefinedIdentifier (name : Text)
  | undefinedProperty (property target : Text)
  | unknownOperation (name : Text)
  | uncalledOperation (name : Text)
  | invalidArguments (name expected : Text) (got : Nat)
  | blankReference (reference : Text)
  | invalidStem (reference stem : Text)
  | invalidAlias (name : Text)
  | unknownAlias (name : Text)
  | unresolved (reference : Text)
  | includeCycle (reference : Text)
  | recursionLimit (limit : Nat)
  | malformedConfig
  | metadataFile (path : Text) (fault : MetadataFault)
  | unsupportedMetadata (extension : Text)
  | invalidSuffix (suffix : Text)
  | alreadySuffixed (filename suffix : Text)
  deriving DecidableEq, Repr

namespace Error

def message : Error → Text
  | file error => error.message
  | unterminatedDirective expression line =>
    "unterminated directive `".toList ++ expression ++ "` opened on line ".toList ++
      Text.ofNat line
  | malformedExpression expression offset reason =>
    "syntax error in `".toList ++ expression ++ "` at offset ".toList ++ Text.ofNat offset ++
      ": ".toList ++ reason
  | undefinedIdentifier name => name ++ " is not defined".toList
  | undefinedProperty property target =>
    "Cannot read property `".toList ++ property ++ "` of ".toList ++ target
  | unknownOperation name => "unknown operation: `@".toList ++ name ++ "`".toList
  | uncalledOperation name =>
    "operation `@".toList ++ name ++ "` must be called, e.g. `@".toList ++ name ++ "(...)`".toList
  | invalidArguments name expected got =>
    "operation `@".toList ++ name ++ "` expects ".toList ++ expected ++
      " argument(s), got ".toList ++ Text.ofNat got
  | blankReference reference => "Cannot create alias from reference: ".toList ++ reference
  | invalidStem reference stem =>
    "Cannot create alias from reference: ".toList ++ reference ++ " with prefix: ".toList ++ stem
  | invalidAlias name => "Cannot create reference from alias: ".toList ++ name
  | unknownAlias name => "Cannot find reference from alias ".toList ++ name ++ ".".toList
  | unresolved reference =>
    "Cannot resolve `".toList ++ reference ++ "` relative to the document".toList
  | includeCycle reference =>
    "include cycle detected: `".toList ++ reference ++ "` is already being included".toList
  | recursionLimit limit => "nested parse depth exceeded the limit of ".toList ++ Text.ofNat limit
  | malformedConfig => "failed to parse config file: *".toList
  | metadataFile path fault =>
    "failed to load metadata file `".toList ++ path ++ "`: ".toList ++ fault.message
  | unsupportedMetadata extension =>
    "unsupported metadata file format: `".toList ++ extension ++ "`".toList
  | invalidSuffix suffix => "the suffix `".toList ++ suffix ++ "` is unsupported".toList
  | alreadySuffixed filename suffix =>
    "cannot process `".toList ++ filename ++ "` because it already includes the suffix `".toList ++
      suffix ++ "`".toList

/-- The diagnostic code of an error, without the common first part. -/
def codeName : Error → String
  | file _ => "io_error"
  | unterminatedDirective _ _ => "unterminated_directive"
  | malformedExpression _ _ _ => "syntax"
  | undefinedIdentifier _ => "undefined_identifier"
  | undefinedProperty _ _ => "undefined_property"
  | unknownOperation _ => "unknown_operation"
  | uncalledOperation _ => "uncalled_operation"
  | invalidArguments _ _ _ => "invalid_arguments"
  | blankReference _ => "blank_reference"
  | invalidStem _ _ => "invalid_prefix"
  | invalidAlias _ => "invalid_alias"
  | unknownAlias _ => "unknown_alias"
  | unresolved _ => "unresolved"
  | includeCycle _ => "include_cycle"
  | recursionLimit _ => "recursion_limit"
  | malformedConfig => "config_parse"
  | metadataFile _ _ => "metadata_file"
  | unsupportedMetadata _ => "unsupported_format"
  | invalidSuffix _ => "invalid_suffix"
  | alreadySuffixed _ _ => "already_suffixed"

def code (e : Error) : Text := "mdon::".toList ++ e.codeName.toList

def help : Error → Option Text
  | unterminatedDirective _ _ =>
    some "close the directive with `<?!>` (or `<!--?!-->` for the commented form)".toList
  | unknownOperation _ =>
    some ("available operations: format, resolve, alias, ref, exists, include, parse, " ++
      "timestamp, links, exception").toList
  | invalidStem _ _ =>
    some "alias prefixes are lowercase `[a-z0-9]` words joined by single hyphens".toList
  | recursionLimit _ => some "raise `max_depth` in mdon.toml or pass `--max-depth`".toList
  | malformedConfig => some "check that mdon.toml is valid TOML".toList
  | unsupportedMetadata _ => some "supported formats: json, toml, yaml, yml".toList
  | invalidSuffix _ =>
    some "suffixes start with a `.` and contain only word characters, e.g. `.out`".toList
  | _ => none

end Error

/-! ### Computations that can fail -/

theorem exists_of_bind_eq_ok {ε α β : Type} {x : Except ε α} {f : α → Except ε β} {b : β}
    (h : x.bind f = .ok b) : ∃ a, x = .ok a ∧ f a = .ok b := by
  cases x with
  | error e => cases h
  | ok a => exact ⟨a, rfl, h⟩

theorem eq_ok_of_mapError_eq_ok {ε ε' α : Type} {x : Except ε α} {f : ε → ε'} {a : α}
    (h : x.mapError f = .ok a) : x = .ok a := by
  cases x with
  | error e => cases h
  | ok b => exact congrArg Except.ok (Except.ok.inj h)

end MarkdownDirectives
