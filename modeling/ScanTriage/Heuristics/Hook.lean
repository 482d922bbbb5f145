import ScanTriage.Text.Bytes

/-!
# Hooks

WordPress reads all metadata of an object the first time one key of it is
read. When one of the hooks below fires, that has already happened for the
object the hook is about.
-/

namespace ScanTriage

inductive ObjectKind where
  | user
  | post
  | comment
  | term
  deriving DecidableEq

def ObjectKind.label : ObjectKind → Bytes
  | user => "user"
  | post => "post"
  | comment => "comment"
  | term => "term"

structure Hook where
  name : Bytes
  kind : ObjectKind

namespace Hook

/-- Every known hook, the longest name first and names of one length in
alphabetical order, so that a name is met before any shorter one it starts
with. -/
def all : List Hook :=
  [ ⟨"edit_user_profile_update", .user⟩,
    ⟨"personal_options_update", .user⟩,
    ⟨"edit_form_after_editor", .post⟩,
    ⟨"edit_form_after_title", .post⟩,
    ⟨"edit_user_profile", .user⟩,
    ⟨"show_user_profile", .user⟩,
    ⟨"personal_options", .user⟩,
    ⟨"add_meta_boxes", .post⟩,
    ⟨"profile_update", .user⟩,
    ⟨"user_register", .user⟩,
    ⟨"comment_post", .comment⟩,
    ⟨"created_term", .term⟩,
    ⟨"edit_comment", .comment⟩,
    ⟨"edited_term", .term⟩,
    ⟨"edit_term", .term⟩,
    ⟨"save_post", .post⟩,
    ⟨"the_post", .post⟩ ]

def kindOf? (name : Bytes) : Option ObjectKind := (all.find? (·.name == name)).map (·.kind)

/-- Whether a text without white space registers a callback on the hook. -/
def isRegisteredIn (hook : Hook) (compact : Bytes) : Bool :=
  Bytes.occurs ("add_action('" ++ hook.name ++ "'") compact ||
    Bytes.occurs ("add_action(\"" ++ hook.name ++ "\"") compact

end Hook

end ScanTriage
